import Tabulate.Proofs.Files
import Tabulate.Proofs.Written
import Tabulate.Proofs.Readable
import Tabulate.Proofs.Spellings
import Tabulate.Proofs.Splitting
import Tabulate.Run.Basic

/-! How the path of a database is read as a URL. Blanks in front of it are taken off, and a scheme behind them; what is
left still ends in the name of the database. Nothing is taken off, and no memory is meant, if the directory begins with
no blank and no scheme and does not speak of memory. -/
namespace Tabulate

open FilePath
open Text (isBlank trim after? after?_eq_some_iff startsWith startsWith_iff contains)

namespace OutputTarget

/-- A text that is the name of the database, or has it behind its last slash. -/
def EndsInName (cs : List Char) : Prop := ∃ front, cs = front ++ databaseName.toList ∧ ∀ c ∈ front.getLast?, c = '/'

section EndsInName
variable {cs pre : List Char} {path directory : String}

theorem isName_databaseName : IsName databaseName := by decide

theorem pieces_databaseName : pieces databaseName = [databaseName] :=
  pieces_of_plain isName_databaseName.2.1 isName_databaseName.1

theorem join_databaseName (directory : String) : join directory databaseName =
    if directory.isEmpty || directory.toList.getLast? = some '/' then directory ++ databaseName
    else directory ++ "/" ++ databaseName := by
  rw [join, isAbsolute_of_plain isName_databaseName.2.1, if_neg Bool.false_ne_true]

theorem endsInName_join (directory : String) : EndsInName (join directory databaseName).toList := by
  rw [join_databaseName]
  split
  · next h =>
    refine ⟨directory.toList, String.toList_append, fun c hc => ?_⟩
    rw [Bool.or_eq_true, decide_eq_true_eq] at h
    rcases h with hempty | hslash
    · rw [String.isEmpty_iff.1 hempty] at hc
      cases hc
    · rw [hslash] at hc
      exact (Option.some.inj hc).symm
  · exact ⟨directory.toList ++ ['/'], by simp, by simp [eq_comm]⟩

theorem EndsInName.ne_nil (h : EndsInName cs) : cs ≠ [] := by
  obtain ⟨front, rfl, -⟩ := h
  exact List.append_ne_nil_of_right_ne_nil _ (by decide)

theorem EndsInName.isEmpty_eq_false (h : EndsInName path.toList) : path.isEmpty = false := by
  rw [Bool.eq_false_iff]
  intro hempty
  exact h.ne_nil (String.toList_eq_nil_iff.2 (String.isEmpty_iff.1 hempty))

theorem EndsInName.getLast? (h : EndsInName cs) : cs.getLast? = some 'e' := by
  obtain ⟨front, rfl, -⟩ := h
  rw [List.getLast?_append_of_ne_nil _ (by decide)]
  decide

/-- The name is the last piece. -/
theorem EndsInName.exists_pieces (h : EndsInName path.toList) : ∃ texts, pieces path = texts ++ [databaseName] := by
  obtain ⟨front, hpath, hfront⟩ := h
  cases front using List.reverseRecOn with
  | nil => exact ⟨[], by rw [String.toList_inj.1 hpath, pieces_databaseName, List.nil_append]⟩
  | append_singleton front c =>
    obtain rfl : c = '/' := hfront c (by simp)
    refine ⟨pieces (String.ofList front), ?_⟩
    rw [pieces_slash front databaseName.toList (by simp [hpath]), String.ofList_toList, pieces_databaseName]

/-- What is taken off the front does not reach into the name. -/
theorem EndsInName.of_append (h : EndsInName (pre ++ cs)) (hpre : ∀ c ∈ pre.getLast?, c ∉ databaseName.toList) :
    EndsInName cs := by
  obtain ⟨front, hsplit, hfront⟩ := h
  rcases List.append_eq_append_iff.1 hsplit with ⟨rest, hrest, hcs⟩ | ⟨rest, hrest, hname⟩
  · refine ⟨rest, hcs, fun c hc => hfront c ?_⟩
    rw [hrest, List.getLast?_append_of_ne_nil _ (List.ne_nil_of_mem (List.mem_of_mem_getLast? hc))]
    exact hc
  · cases rest using List.reverseRecOn with
    | nil => exact ⟨[], hname.symm, by simp⟩
    | append_singleton rest c => exact absurd (by simp [hname]) (hpre c (by simp [hrest]))

theorem not_isBlank_of_mem_databaseName {c : Char} (hc : c ∈ databaseName.toList) : isBlank c = false := by
  have hall : (databaseName.toList.all fun c => !isBlank c) = true := by decide
  simpa using List.all_eq_true.1 hall c hc

/-- Blanks in front do not reach into the name. -/
theorem EndsInName.dropWhile_isBlank (h : EndsInName cs) : EndsInName (cs.dropWhile isBlank) := by
  have hsplit : cs.takeWhile isBlank ++ cs.dropWhile isBlank = cs := List.takeWhile_append_dropWhile
  refine EndsInName.of_append (hsplit.symm ▸ h) fun c hc hmem => ?_
  have hblank : isBlank c = true := List.mem_takeWhile_imp (List.mem_of_mem_getLast? hc)
  rw [not_isBlank_of_mem_databaseName hmem] at hblank
  cases hblank

theorem EndsInName.trim_eq (h : EndsInName cs) : trim cs = cs.dropWhile isBlank := by
  have hsplit : cs.takeWhile isBlank ++ cs.dropWhile isBlank = cs := List.takeWhile_append_dropWhile
  have hblank : Blank (cs.takeWhile isBlank) := fun c hc => List.mem_takeWhile_imp hc
  have hend := h.dropWhile_isBlank
  have htight : Tight (cs.dropWhile isBlank) := by
    refine ⟨hend.ne_nil, fun c hc => ?_, fun c hc => ?_⟩
    · have hfirst := List.head?_dropWhile_not isBlank cs
      rw [Option.mem_def.1 hc] at hfirst
      exact hfirst
    · rw [hend.getLast?] at hc
      cases hc
      decide
  have hmargins := trim_margins hblank htight blank_nil
  rwa [List.append_nil, hsplit] at hmargins

end EndsInName

/-! ### What a directory begins with and speaks of -/

section Join
variable {directory : String} {k m xs ys : List Char} {x : Char}

/-- What is found around a separator is found on one of its sides. -/
theorem infix_of_infix_around (hx : x ∉ m) (h : m <:+: xs ++ x :: ys) : m <:+: xs ∨ m <:+: ys := by
  obtain ⟨before, rest, hsplit⟩ := h
  rw [List.append_assoc] at hsplit
  rcases List.append_eq_append_iff.1 hsplit with ⟨more, hxs, hmore⟩ | ⟨more, rfl, hmore⟩
  · rcases List.append_eq_append_iff.1 hmore with ⟨tail, hmid, -⟩ | ⟨tail, rfl, htail⟩
    · exact .inl ⟨before, tail, by rw [hxs, hmid, List.append_assoc]⟩
    · cases tail with
      | nil => exact .inl ⟨before, [], by simp [hxs]⟩
      | cons c tail =>
        obtain rfl := (List.cons.inj htail).1
        exact absurd (by simp) hx
  · cases more with
    | nil =>
      cases m with
      | nil => exact .inl List.nil_infix
      | cons c m =>
        obtain rfl := (List.cons.inj hmore).1
        exact absurd List.mem_cons_self hx
    | cons c more => exact .inr ⟨more, rest, by rw [List.append_assoc]; exact (List.cons.inj hmore).2.symm⟩

theorem exists_join (directory : String) : ∃ tail, (join directory databaseName).toList = directory.toList ++ tail ∧
    ∀ c ∈ tail, c = '/' ∨ c ∈ databaseName.toList := by
  rw [join_databaseName]
  split
  · exact ⟨databaseName.toList, String.toList_append, fun c hc => .inr hc⟩
  · exact ⟨'/' :: databaseName.toList, by simp, fun c hc => by simpa using hc⟩

/-- What ends in a character that is neither a slash nor in the name does not reach into the name. -/
theorem prefix_join_iff (hslash : x ≠ '/') (hx : x ∉ databaseName.toList) :
    k ++ [x] <+: (join directory databaseName).toList ↔ k ++ [x] <+: directory.toList := by
  obtain ⟨tail, hjoin, htail⟩ := exists_join directory
  rw [hjoin]
  constructor
  · intro h
    rcases List.prefix_or_prefix_of_prefix h (List.prefix_append directory.toList tail) with hk | ⟨more, hmore⟩
    · exact hk
    · rw [← hmore, List.prefix_append_right_inj] at h
      cases more using List.reverseRecOn with
      | nil =>
        rw [List.append_nil] at hmore
        exact hmore ▸ List.prefix_rfl
      | append_singleton more y =>
        rw [← List.append_assoc] at hmore
        obtain rfl : y = x := by simpa using congrArg List.getLast? hmore
        rcases htail y (h.subset (by simp)) with hy | hy
        · exact absurd hy hslash
        · exact absurd hy hx
  · exact fun h => h.trans (List.prefix_append _ _)

theorem startsWith_join (hslash : x ≠ '/') (hx : x ∉ databaseName.toList) :
    startsWith (k ++ [x]) (join directory databaseName).toList = startsWith (k ++ [x]) directory.toList := by
  rw [Bool.eq_iff_iff, startsWith_iff, startsWith_iff, prefix_join_iff hslash hx]

/-- A text without slashes that does not stand in the name is not made by it. -/
theorem contains_join (hslash : '/' ∉ m) (hm : contains m databaseName.toList = false) :
    contains m (join directory databaseName).toList = contains m directory.toList := by
  rw [Bool.eq_false_iff, ne_eq, contains_iff] at hm
  rw [Bool.eq_iff_iff, contains_iff, contains_iff]
  have hbehind {cs : List Char} (h : m <:+: cs ++ '/' :: databaseName.toList) : m <:+: cs :=
    (infix_of_infix_around hslash h).resolve_right hm
  constructor
  · intro h
    rw [join_databaseName] at h
    split at h
    · next hend =>
      rw [Bool.or_eq_true, decide_eq_true_eq] at hend
      rcases hend with hempty | hlast
      · rw [String.isEmpty_iff.1 hempty] at h
        exact absurd h hm
      · obtain ⟨cs, hcs⟩ := List.getLast?_eq_some_iff.1 hlast
        have htext : (directory ++ databaseName).toList = cs ++ '/' :: databaseName.toList := by simp [hcs]
        rw [htext] at h
        rw [hcs]
        exact (hbehind h).trans (List.prefix_append _ _).isInfix
    · have htext : (directory ++ "/" ++ databaseName).toList = directory.toList ++ '/' :: databaseName.toList := by simp
      rw [htext] at h
      exact hbehind h
  · intro h
    obtain ⟨tail, hjoin, -⟩ := exists_join directory
    rw [hjoin]
    exact h.trans (List.prefix_append _ _).isInfix

theorem head_blank_join (directory : String) :
    (join directory databaseName).toList.head?.any isBlank = directory.toList.head?.any isBlank := by
  by_cases hempty : directory = ""
  · subst hempty
    decide
  · obtain ⟨tail, hjoin, -⟩ := exists_join directory
    rw [hjoin, List.head?_append_of_ne_nil _ fun hnil => hempty (String.toList_eq_nil_iff.1 hnil)]

end Join

end OutputTarget

namespace StoreConfig
open OutputTarget

def inDirectory (directory : String) (maxVars : Nat) : StoreConfig := ⟨(sqliteIn directory).location, maxVars⟩

variable {c : StoreConfig} {directory : String}

theorem url_inDirectory (directory : String) (n : Nat) :
    (inDirectory directory n).url = join directory databaseName := rfl

theorem endsInName_inDirectory (directory : String) (n : Nat) : EndsInName (inDirectory directory n).url.toList :=
  endsInName_join directory

theorem toList_trimmedUrl (h : EndsInName c.url.toList) : c.trimmedUrl.toList = c.url.toList.dropWhile isBlank := by
  rw [trimmedUrl, String.toList_ofList, h.trim_eq]

theorem endsInName_trimmedUrl (h : EndsInName c.url.toList) : EndsInName c.trimmedUrl.toList :=
  toList_trimmedUrl h ▸ h.dropWhile_isBlank

/-- The scheme of a URL and blanks before it are taken off, and nothing else. -/
theorem exists_mark (h : EndsInName c.url.toList) : ∃ mark, c.url.toList = mark ++ c.path.toList ∧
    '/' ∉ mark ∧ '.' ∉ mark ∧ EndsInName c.path.toList ∧
    (mark = [] ↔ c.url.toList.head?.any isBlank = false ∧ startsWith "file:".toList c.url.toList = false) := by
  have hsplit : c.url.toList.takeWhile isBlank ++ c.trimmedUrl.toList = c.url.toList := by
    rw [toList_trimmedUrl h]
    exact List.takeWhile_append_dropWhile
  have hblank : ∀ x ∈ c.url.toList.takeWhile isBlank, isBlank x = true := fun x hx => List.mem_takeWhile_imp hx
  have hfree {x : Char} (hx : isBlank x = false) : x ∉ c.url.toList.takeWhile isBlank :=
    fun hmem => absurd (hblank x hmem) (by simp [hx])
  have hend := endsInName_trimmedUrl h
  have hnone : c.url.toList.takeWhile isBlank = [] ↔ c.url.toList.head?.any isBlank = false := by
    cases c.url.toList with
    | nil => simp
    | cons x xs => by_cases hx : isBlank x = true <;> simp [hx]
  cases hscheme : after? "file:".toList c.trimmedUrl.toList with
  | some rest =>
    have hpath : c.path.toList = rest := by rw [path, hscheme, String.toList_ofList]
    have hrest := after?_eq_some_iff.1 hscheme
    refine ⟨c.url.toList.takeWhile isBlank ++ "file:".toList, ?_, ?_, ?_, ?_, ?_⟩
    · rw [hpath, List.append_assoc, ← hrest, hsplit]
    · exact List.not_mem_append (hfree (by decide)) (by decide)
    · exact List.not_mem_append (hfree (by decide)) (by decide)
    · rw [hpath]
      have hlast : "file:".toList.getLast? = some ':' := by decide
      refine EndsInName.of_append (hrest ▸ hend) fun x hx => ?_
      rw [hlast] at hx
      cases hx
      decide
    · refine iff_of_false (List.append_ne_nil_of_right_ne_nil _ (by decide)) fun ⟨hfirst, hfile⟩ => ?_
      rw [hnone.2 hfirst, List.nil_append] at hsplit
      rw [startsWith, ← hsplit, hscheme] at hfile
      cases hfile
  | none =>
    have hpath : c.path = c.trimmedUrl := by rw [path, hscheme]
    refine ⟨c.url.toList.takeWhile isBlank, by rw [hpath, hsplit], hfree (by decide), hfree (by decide),
      hpath ▸ hend, ?_⟩
    rw [hnone, iff_self_and]
    intro hfirst
    rw [hnone.2 hfirst, List.nil_append] at hsplit
    rw [startsWith, ← hsplit, hscheme]
    rfl

section Mark
variable {url path : String} {mark : List Char} (hurl : url.toList = mark ++ path.toList)
include hurl

/-- What is taken off a URL is taken off its first piece. -/
theorem exists_first_piece : ∃ x texts, '/' ∉ x ∧ pieces path = pieces (String.ofList x) ++ texts ∧
    pieces url = pieces (String.ofList (mark ++ x)) ++ texts := by
  by_cases hslash : '/' ∈ path.toList
  · obtain ⟨x, rest, hpath, hx⟩ := List.eq_append_cons_of_mem hslash
    refine ⟨x, pieces (String.ofList rest), hx, pieces_slash x rest hpath, pieces_slash (mark ++ x) rest ?_⟩
    rw [hurl, hpath, List.append_assoc]
  · refine ⟨path.toList, [], hslash, ?_, ?_⟩
    · rw [String.ofList_toList, List.append_nil]
    · rw [← hurl, String.ofList_toList, List.append_nil]

variable (hmark : '/' ∉ mark)
include hmark

/-- No piece becomes longer. -/
theorem short_behind_mark {n : Nat} (hshort : ∀ p ∈ pieces url, p.utf8ByteSize ≤ n) :
    ∀ p ∈ pieces path, p.utf8ByteSize ≤ n := by
  intro p hp
  obtain ⟨x, texts, hx, hpath, hpieces⟩ := exists_first_piece hurl
  rw [hpath] at hp
  rcases List.mem_append.1 hp with hp | hp
  · have hne : x ≠ [] := by
      rintro rfl
      cases hp
    have hplain : Plain (String.ofList x) := by simpa [Plain] using hx
    have hwhole : Plain (String.ofList (mark ++ x)) := by simp [Plain, hmark, hx]
    have hlong := hshort (String.ofList (mark ++ x)) (by rw [hpieces, pieces_of_plain hwhole (by simp [hne])]; simp)
    rw [String.ofList_append, String.utf8ByteSize_append] at hlong
    rw [pieces_of_plain hplain (by simp [hne]), List.mem_singleton] at hp
    rw [hp]
    exact Nat.le_trans (Nat.le_add_left _ _) hlong
  · exact hshort p (by rw [hpieces]; exact List.mem_append_right _ hp)

/-- Nothing is taken off a URL that begins with a slash. -/
theorem isAbsolute_behind_mark (habsolute : isAbsolute url = true) : isAbsolute path = true := by
  obtain ⟨cs, hcs⟩ : ∃ cs, url.toList = '/' :: cs := List.head?_eq_some_iff.1 (of_decide_eq_true habsolute)
  cases mark with
  | nil =>
    have hsame : url = path := String.toList_inj.1 hurl
    rwa [← hsame]
  | cons y mark =>
    rw [hcs] at hurl
    exact absurd ((List.cons.inj hurl).1 ▸ List.mem_cons_self) hmark

end Mark

structure Unmarked (directory : String) : Prop where
  blank : directory.toList.head?.any isBlank = false
  scheme : startsWith "file:".toList directory.toList = false
  near : isRemote directory = false
  memory : contains "mode=memory".toList directory.toList = false

theorem isRemote_join (directory : String) : isRemote (join directory databaseName) = isRemote directory := by
  have hstarts (k : List Char) : startsWith (k ++ [':']) (join directory databaseName).toList =
      startsWith (k ++ [':']) directory.toList := startsWith_join (by decide) (by decide)
  have hlibsql := hstarts "libsql".toList
  have hhttp := hstarts "http".toList
  have hhttps := hstarts "https".toList
  simp only [isRemote, List.any_cons, List.any_nil]
  exact congrArg₂ _ hlibsql (congrArg₂ _ hhttp (congrArg₂ _ hhttps rfl))

/-- Where nothing is taken off, only what the URL speaks of can mean memory. -/
theorem isInMemory_eq (h : EndsInName c.url.toList) (hblank : c.url.toList.head?.any isBlank = false)
    (hfile : startsWith "file:".toList c.url.toList = false) :
    c.isInMemory = contains "mode=memory".toList c.url.toList := by
  have htrimmed : c.trimmedUrl = c.url := by
    rw [← String.toList_inj, toList_trimmedUrl h]
    cases hcs : c.url.toList with
    | nil => rfl
    | cons x xs =>
      rw [hcs] at hblank
      exact List.dropWhile_cons_of_neg (by simpa using hblank)
  have hmemory : c.url ≠ ":memory:" := by
    intro hmemory
    have hlast := h.getLast?
    rw [hmemory] at hlast
    exact absurd hlast (by decide)
  have hscheme : startsWith "file::memory:".toList c.url.toList = false := by
    rw [Bool.eq_false_iff, ne_eq, startsWith_iff] at hfile ⊢
    exact fun hlong => hfile (List.IsPrefix.trans (by decide) hlong)
  rw [isInMemory, htrimmed, hscheme, decide_eq_false hmemory, Bool.false_or, Bool.false_or]

/-- The URL of a store is its path, and is on this machine and not in memory, exactly if the directory has no mark of
another meaning. -/
theorem unmarked_iff (directory : String) (n : Nat) : Unmarked directory ↔
    (inDirectory directory n).path = (inDirectory directory n).url ∧
    isRemote (inDirectory directory n).url = false ∧ (inDirectory directory n).isInMemory = false := by
  have hurl := url_inDirectory directory n
  have hfile : startsWith "file:".toList (join directory databaseName).toList =
      startsWith "file:".toList directory.toList := startsWith_join (k := "file".toList) (by decide) (by decide)
  have hmemory : contains "mode=memory".toList (join directory databaseName).toList =
      contains "mode=memory".toList directory.toList := contains_join (by decide) (by decide)
  obtain ⟨mark, hmark, -, -, -, hnone⟩ := exists_mark (endsInName_inDirectory directory n)
  have hpath : (inDirectory directory n).path = (inDirectory directory n).url ↔ mark = [] := by
    rw [← String.toList_inj, hmark, List.self_eq_append_left]
  have hinMemory := isInMemory_eq (endsInName_inDirectory directory n)
  rw [hurl, head_blank_join, hfile] at hnone hinMemory
  rw [hmemory] at hinMemory
  rw [hpath, hnone, hurl, isRemote_join]
  constructor
  · intro h
    exact ⟨⟨h.blank, h.scheme⟩, h.near, (hinMemory h.blank h.scheme).trans h.memory⟩
  · rintro ⟨⟨hblank, hscheme⟩, hnear, hnot⟩
    exact ⟨hblank, hscheme, hnear, (hinMemory hblank hscheme).symm.trans hnot⟩

end StoreConfig
end Tabulate
