import Mathlib.Data.List.Chain
import Mathlib.Data.List.TakeWhile
import Tabulate.Text.Basic

/-! The normal form of a text. It has the words of the text, and of all texts with these words it is the one that
has nothing but single spaces between them. So it is the same for two texts exactly if their words are. -/
namespace Tabulate.Text

/-- The words in a text, from left to right: its longest pieces without blanks. -/
inductive Worded : List Char → List (List Char) → Prop where
  | nil : Worded [] []
  | blank {c : Char} {cs : List Char} {ws : List (List Char)} (hc : isBlank c = true) (h : Worded cs ws) :
      Worded (c :: cs) ws
  | word {w cs : List Char} {ws : List (List Char)} (hne : w ≠ []) (hw : ∀ c ∈ w, isBlank c = false)
      (hend : ∀ c ∈ cs.head?, isBlank c = true) (h : Worded cs ws) : Worded (w ++ cs) (w :: ws)

structure SinglySpaced (cs : List Char) : Prop where
  space : ∀ c ∈ cs, isBlank c = true → c = ' '
  begins : ∀ c ∈ cs.head?, isBlank c = false
  ends : ∀ c ∈ cs.getLast?, isBlank c = false
  apart : cs.IsChain fun a b => isBlank a = true → isBlank b = false

section Words
variable {c : Char} {w cs : List Char} {ws : List (List Char)}

/-! ### Words -/

theorem words_blank (hc : isBlank c = true) (cs : List Char) : words (c :: cs) = words cs := by
  rw [words, List.splitOnP_cons_eq_if_modifyHead, if_pos hc]
  rfl

theorem words_word (hne : w ≠ []) (hw : ∀ c ∈ w, isBlank c = false) (hend : ∀ c ∈ cs.head?, isBlank c = true) :
    words (w ++ cs) = w :: words cs := by
  have hkept : w.isEmpty = false := by simpa using hne
  cases cs with
  | nil => simp [words, List.splitOnP_eq_singleton hw, hkept]
  | cons c cs =>
    have hc : isBlank c = true := hend c rfl
    rw [words_blank hc, words, List.splitOnP_append_cons_of_forall_mem hw c hc,
      List.filter_cons_of_pos (by simp [hkept])]
    rfl

theorem Worded.words_eq (h : Worded cs ws) : words cs = ws := by
  induction h with
  | nil => rfl
  | blank hc _ ih => rw [words_blank hc, ih]
  | word hne hw hend _ ih => rw [words_word hne hw hend, ih]

theorem worded_words (cs : List Char) : Worded cs (words cs) := by
  induction hn : cs.length using Nat.strongRecOn generalizing cs with
  | ind n ih =>
    cases cs with
    | nil => exact .nil
    | cons c cs =>
      by_cases hc : isBlank c = true
      · rw [words_blank hc]
        exact .blank hc (ih cs.length (by simp [← hn]) cs rfl)
      · -- the word goes as far as there is no blank
        let w := (c :: cs).takeWhile fun c => !isBlank c
        let rest := (c :: cs).dropWhile fun c => !isBlank c
        have hsplit : w ++ rest = c :: cs := List.takeWhile_append_dropWhile
        have hne : w ≠ [] := by simp [w, hc]
        have hw : ∀ c ∈ w, isBlank c = false := fun c hmem => by simpa using List.mem_takeWhile_imp hmem
        have hend : ∀ c ∈ rest.head?, isBlank c = true := by
          have hfirst := List.head?_dropWhile_not (fun c => !isBlank c) (c :: cs)
          intro c hmem
          rw [Option.mem_def.1 hmem] at hfirst
          simpa using hfirst
        have hshorter : rest.length < n := by
          have hlength := congrArg List.length hsplit
          rw [List.length_append, hn] at hlength
          have hpos := List.length_pos_iff.2 hne
          omega
        rw [← hsplit, words_word hne hw hend]
        exact .word hne hw hend (ih rest.length hshorter rest rfl)

theorem words_eq_iff : words cs = ws ↔ Worded cs ws := ⟨fun h => h ▸ worded_words cs, Worded.words_eq⟩

theorem Worded.of_mem (h : Worded cs ws) (hw : w ∈ ws) : w ≠ [] ∧ ∀ c ∈ w, isBlank c = false := by
  induction h with
  | nil => cases hw
  | blank _ _ ih => exact ih hw
  | word hne hplain _ _ ih =>
    rcases List.mem_cons.1 hw with rfl | hw
    · exact ⟨hne, hplain⟩
    · exact ih hw

/-! ### Words with a space between any two -/

def AreWords (ws : List (List Char)) : Prop := ∀ w ∈ ws, w ≠ [] ∧ ∀ c ∈ w, isBlank c = false

theorem areWords_words (cs : List Char) : AreWords (words cs) := fun _ => (worded_words cs).of_mem

theorem isBlank_space : isBlank ' ' = true := by decide

theorem intercalate_two (w v : List Char) (ws : List (List Char)) :
    [' '].intercalate (w :: v :: ws) = w ++ ' ' :: [' '].intercalate (v :: ws) := by
  rw [List.intercalate_cons_cons, List.append_assoc]
  rfl

theorem worded_intercalate (h : AreWords ws) : Worded ([' '].intercalate ws) ws := by
  induction ws with
  | nil => exact .nil
  | cons w ws ih =>
    obtain ⟨⟨hne, hw⟩, hrest⟩ := List.forall_mem_cons.1 h
    cases ws with
    | nil =>
      have hword : Worded (w ++ []) [w] := .word hne hw (by simp) .nil
      rw [List.append_nil] at hword
      rwa [List.intercalate_singleton]
    | cons v ws =>
      rw [intercalate_two]
      exact .word hne hw (by simp [isBlank_space]) (.blank isBlank_space (ih hrest))

theorem SinglySpaced.of_word (hw : ∀ c ∈ w, isBlank c = false) : SinglySpaced w where
  space c hc hblank := by
    rw [hw c hc] at hblank
    cases hblank
  begins c hc := hw c (List.mem_of_mem_head? hc)
  ends c hc := hw c (List.mem_of_mem_getLast? hc)
  apart := by
    refine List.Pairwise.isChain (List.pairwise_of_forall_mem_list fun a _ b hb => ?_)
    exact fun _ => hw b hb

theorem SinglySpaced.behind (hne : w ≠ []) (hw : ∀ c ∈ w, isBlank c = false) (hcs : cs ≠ []) (h : SinglySpaced cs) :
    SinglySpaced (w ++ ' ' :: cs) where
  space c hc hblank := by
    rcases List.mem_append.1 hc with hc | hc
    · exact (SinglySpaced.of_word hw).space c hc hblank
    · rcases List.mem_cons.1 hc with rfl | hc
      · rfl
      · exact h.space c hc hblank
  begins c hc := by
    rw [List.head?_append_of_ne_nil w hne] at hc
    exact hw c (List.mem_of_mem_head? hc)
  ends c hc := by
    rw [List.getLast?_append_of_ne_nil w (List.cons_ne_nil _ _), List.getLast?_cons_of_ne_nil hcs] at hc
    exact h.ends c hc
  apart := by
    have hspace : (' ' :: cs).IsChain fun a b => isBlank a = true → isBlank b = false :=
      List.isChain_cons.2 ⟨fun c hc _ => h.begins c hc, h.apart⟩
    refine (SinglySpaced.of_word hw).apart.append hspace fun a ha b _ hblank => ?_
    rw [hw a (List.mem_of_mem_getLast? ha)] at hblank
    cases hblank

theorem intercalate_ne_nil (h : AreWords ws) (hws : ws ≠ []) : [' '].intercalate ws ≠ [] := by
  intro hnil
  have hwords := (worded_intercalate h).words_eq
  rw [hnil] at hwords
  exact hws hwords.symm

theorem singlySpaced_intercalate (h : AreWords ws) : SinglySpaced ([' '].intercalate ws) := by
  induction ws with
  | nil => exact .of_word (List.forall_mem_nil _)
  | cons w ws ih =>
    obtain ⟨⟨hne, hw⟩, hrest⟩ := List.forall_mem_cons.1 h
    cases ws with
    | nil =>
      rw [List.intercalate_singleton]
      exact .of_word hw
    | cons v ws =>
      rw [intercalate_two]
      exact .behind hne hw (intercalate_ne_nil hrest (List.cons_ne_nil v ws)) (ih hrest)

/-- Behind what is blank at its beginning, a text with single spaces is its words with spaces between them. -/
theorem Worded.intercalate_eq (h : Worded cs ws) (hspace : ∀ c ∈ cs, isBlank c = true → c = ' ')
    (hends : ∀ c ∈ cs.getLast?, isBlank c = false)
    (hapart : cs.IsChain fun a b => isBlank a = true → isBlank b = false) :
    [' '].intercalate ws = cs.dropWhile isBlank := by
  induction h with
  | nil => rfl
  | @blank c cs ws hc h ih =>
    rw [List.dropWhile_cons_of_pos hc]
    refine ih (fun d hd => hspace d (List.mem_cons_of_mem c hd)) (fun d hd => hends d ?_) hapart.tail
    rw [List.getLast?_cons_of_ne_nil (List.ne_nil_of_mem (List.mem_of_mem_getLast? hd))]
    exact hd
  | @word w cs ws hne hw hend h ih =>
    have hwhole : (w ++ cs).dropWhile isBlank = w ++ cs := by
      obtain ⟨c, w, rfl⟩ := List.exists_cons_of_ne_nil hne
      exact List.dropWhile_cons_of_neg (by simp [hw c List.mem_cons_self])
    rw [hwhole]
    cases cs with
    | nil =>
      rw [← h.words_eq, List.append_nil]
      exact List.intercalate_singleton
    | cons c cs =>
      obtain rfl : c = ' ' := hspace c (by simp) (hend c rfl)
      have hlast : (w ++ ' ' :: cs).getLast? = (' ' :: cs).getLast? := List.getLast?_append_of_ne_nil w (by simp)
      rw [hlast] at hends
      obtain ⟨-, hchain, -⟩ := List.isChain_append.1 hapart
      have htail := ih (fun d hd => hspace d (List.mem_append_right w hd)) hends hchain
      -- behind the space comes the next word
      have hnext : cs.dropWhile isBlank = cs := by
        cases cs with
        | nil => rfl
        | cons d cs =>
          have hd := (List.isChain_cons.1 hchain).1 d rfl isBlank_space
          exact List.dropWhile_cons_of_neg (by simp [hd])
      rw [List.dropWhile_cons_of_pos isBlank_space, hnext] at htail
      cases ws with
      | nil =>
        obtain rfl : cs = [] := htail.symm
        exact absurd (hends ' ' rfl) (by simp [isBlank_space])
      | cons v ws => rw [intercalate_two, htail]

theorem SinglySpaced.intercalate_words (h : SinglySpaced cs) : [' '].intercalate (words cs) = cs := by
  rw [(worded_words cs).intercalate_eq h.space h.ends h.apart]
  cases cs with
  | nil => rfl
  | cons c cs => exact List.dropWhile_cons_of_neg (by simp [h.begins c rfl])

end Words

/-! ### The normal form -/

section Normal
variable {s t : String}

theorem toList_normalize (s : String) : (normalize s).toList = [' '].intercalate (words s.toList) :=
  String.toList_ofList

theorem words_normalize (s : String) : words (normalize s).toList = words s.toList := by
  rw [toList_normalize, (worded_intercalate (areWords_words s.toList)).words_eq]

theorem normalize_eq_of_words (h : words s.toList = words t.toList) : normalize s = normalize t := by
  rw [normalize, h, normalize]

theorem normalize_eq_self_iff : normalize s = s ↔ SinglySpaced s.toList := by
  constructor
  · intro h
    rw [← h, toList_normalize]
    exact singlySpaced_intercalate (areWords_words s.toList)
  · intro h
    rw [← String.toList_inj, toList_normalize, h.intercalate_words]

/-- The normal form of a text has the words of the text, which are its longest pieces without blanks, and is singly
spaced. It is its own normal form, as only singly spaced texts are, and two texts have the same one if and only if they
have the same words. -/
theorem normalize_canonical (s : String) :
    (∀ ws, words s.toList = ws ↔ Worded s.toList ws) ∧ words (normalize s).toList = words s.toList ∧
    SinglySpaced (normalize s).toList ∧ normalize (normalize s) = normalize s ∧
    (normalize s = s ↔ SinglySpaced s.toList) ∧ ∀ t, normalize s = normalize t ↔ words s.toList = words t.toList := by
  have hidempotent : normalize (normalize s) = normalize s := normalize_eq_of_words (words_normalize s)
  refine ⟨fun ws => words_eq_iff, words_normalize s, normalize_eq_self_iff.1 hidempotent, hidempotent,
    normalize_eq_self_iff, fun t => ⟨fun h => ?_, normalize_eq_of_words⟩⟩
  rw [← words_normalize s, h, words_normalize t]

end Normal
end Tabulate.Text
