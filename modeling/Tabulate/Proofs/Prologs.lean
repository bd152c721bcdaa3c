import Mathlib.Data.List.DropRight
import Tabulate.Proofs.Readers
import Tabulate.Xml.Document

/-! What stands in front of a document type declaration: a byte order mark, the declaration of the document,
comments and instructions. Every opening bracket in it is closed in it, and what is read there does not depend
on what the document type declaration holds. -/
namespace Tabulate.Xml

open Text (after? after?_eq_some_iff startsWith)

/-- Every opening bracket of the text has a closing one behind it. -/
def Closed : List Char → Prop
  | [] => True
  | c :: cs => (c = '<' → '>' ∈ cs) ∧ Closed cs

theorem closed_of_not_mem {cs : List Char} (h : '<' ∉ cs) : Closed cs := by
  induction cs with
  | nil => trivial
  | cons c cs ih =>
    exact ⟨fun e => absurd (e ▸ List.mem_cons_self) h, ih fun hc => h (List.mem_cons_of_mem c hc)⟩

theorem closed_concat (cs : List Char) : Closed (cs ++ ['>']) := by
  induction cs with
  | nil => exact ⟨fun e => by simp at e, trivial⟩
  | cons c cs ih => exact ⟨fun _ => by simp, ih⟩

theorem Closed.append {as bs : List Char} (ha : Closed as) (hb : Closed bs) : Closed (as ++ bs) := by
  induction as with
  | nil => exact hb
  | cons a as ih => exact ⟨fun e => List.mem_append_left bs (ha.1 e), ih ha.2⟩

theorem closed_spaces (cs : List Char) : Closed (cs.takeWhile isSpace) :=
  closed_of_not_mem fun h => by simpa [isSpace] using List.mem_takeWhile_imp h

def unmark (cs : List Char) : List Char := (after? ['\uFEFF'] cs).getD cs

theorem unmark_marked (cs : List Char) : unmark (['\uFEFF'] ++ cs) = cs := by
  rw [unmark, after?_self, Option.getD_some]

theorem eq_of_unmark (cs : List Char) : ∃ m, cs = m ++ unmark cs ∧ Closed m ∧
    ∀ u, u.head? = (unmark cs).head? → unmark (m ++ u) = u := by
  cases hm : after? ['\uFEFF'] cs with
  | none =>
    refine ⟨[], by simp [unmark, hm], trivial, fun u hu => ?_⟩
    cases hu' : after? ['\uFEFF'] u with
    | none => simp [unmark, hu']
    | some r =>
      rw [unmark, hm, Option.getD_none, after?_eq_some_iff.1 hu'] at hu
      cases cs with
      | nil => simp at hu
      | cons c cs =>
        simp only [List.cons_append, List.head?_cons, Option.some.injEq] at hu
        simp [after?, ← hu] at hm
  | some r =>
    rw [after?_eq_some_iff] at hm
    subst hm
    exact ⟨['\uFEFF'], by rw [unmark_marked], closed_of_not_mem (by decide), fun u _ => unmark_marked u⟩

def undeclared? (cs : List Char) : Option (List Char) :=
  if startsWith "<?xml ".toList (unmark cs) then declaration? ((unmark cs).drop 5) else some (unmark cs)

theorem keyword_eq : keyword = ['<', '!', 'D', 'O', 'C', 'T', 'Y', 'P', 'E'] := rfl

theorem head?_exchange (p x x' : List Char) : (p ++ (keyword ++ x)).head? = (p ++ (keyword ++ x')).head? := by
  cases p <;> rfl

theorem startsWith_exchange {k : List Char} (hk : k.length ≤ keyword.length) (p x x' : List Char) :
    startsWith k (p ++ (keyword ++ x)) = startsWith k (p ++ (keyword ++ x')) := by
  have hlength : k.length ≤ (p ++ keyword).length := by simp; omega
  simp only [startsWith, ← List.append_assoc, after?_append_of_length hlength, Option.isSome_map]

theorem undeclared?_exchange {cs p x : List Char} (h : undeclared? cs = some (p ++ (keyword ++ x))) :
    ∃ q, cs = q ++ (p ++ (keyword ++ x)) ∧ Closed q ∧
      ∀ x', undeclared? (q ++ (p ++ (keyword ++ x'))) = some (p ++ (keyword ++ x')) := by
  obtain ⟨m, hcs, hclosed, hunmark⟩ := eq_of_unmark cs
  unfold undeclared? at h
  generalize unmark cs = u at h hcs hunmark
  subst hcs
  split at h
  · next hdeclared =>
    obtain ⟨d, hd, hlocal⟩ := closing_declaration? h
    have hu : u = (u.take 5 ++ d) ++ '>' :: (p ++ (keyword ++ x)) := by
      rw [List.append_assoc, ← hd, List.take_append_drop]
    have hlength : (u.take 5).length = 5 := by
      have := congrArg List.length hd
      simp only [List.length_drop, List.length_append, List.length_cons] at this
      simp only [List.length_take]
      omega
    refine ⟨m ++ (u.take 5 ++ d ++ ['>']), by simpa using hu, hclosed.append (closed_concat _), fun x' => ?_⟩
    generalize u.take 5 = version at hu hlength
    subst hu
    have hunmarked := hunmark ((version ++ d) ++ '>' :: (p ++ (keyword ++ x'))) (ahead_head? _ _ _)
    have hx := ahead_startsWith (k := "<?xml ".toList) (by decide) (version ++ d)
      (p ++ (keyword ++ x)) (p ++ (keyword ++ x'))
    rw [hx] at hdeclared
    have hdrop : ((version ++ d) ++ '>' :: (p ++ (keyword ++ x'))).drop 5 =
        d ++ '>' :: (p ++ (keyword ++ x')) := by
      rw [List.append_assoc, List.drop_append_of_le_length (by omega), ← hlength, List.drop_length]
      rfl
    simp only [List.append_assoc, List.cons_append, List.nil_append] at hunmarked hdeclared hdrop ⊢
    rw [undeclared?, hunmarked, if_pos hdeclared, hdrop, hlocal]
  · next hno =>
    obtain rfl := Option.some.inj h
    refine ⟨m, rfl, hclosed, fun x' => ?_⟩
    have hx := startsWith_exchange (k := "<?xml ".toList) (by decide) p x x'
    rw [hx] at hno
    rw [undeclared?, hunmark _ (head?_exchange p x' x), if_neg hno]

theorem eq_of_skipSpaces (cs : List Char) : cs = cs.takeWhile isSpace ++ skipSpaces cs :=
  List.takeWhile_append_dropWhile.symm

def miscItem? : List Char → Option (Token × List Char)
  | '<' :: '!' :: '-' :: '-' :: rest => comment? rest
  | '<' :: '?' :: rest => instruction? ('<' :: '?' :: rest)
  | _ => none

theorem miscItem?_eq (cs : List Char) : miscItem? cs =
    if startsWith "<!--".toList cs = true then (after? "<!--".toList cs).bind comment?
    else if startsWith "<?".toList cs = true then instruction? cs else none := by
  unfold miscItem?
  split
  · rfl
  · rfl
  · next hcomment hinstruction =>
    have hno {k : List Char} (h : startsWith k cs = true) : ∃ r, cs = k ++ r := by
      obtain ⟨r, hr⟩ := Option.isSome_iff_exists.1 h
      exact ⟨r, after?_eq_some_iff.1 hr⟩
    rw [if_neg fun h => (hno h).elim fun r hr => hcomment r hr,
      if_neg fun h => (hno h).elim fun r hr => hinstruction r hr]

theorem closing_miscItem? : Closing miscItem? := by
  intro v
  rw [funext miscItem?_eq]
  exact .ite (ahead_startsWith (by decide)) ((localRest_after? _).bind (closing_comment? v))
    (.ite (ahead_startsWith (by decide)) (closing_instruction? v) .fail)

theorem misc?_of_miscItem? {cs r : List Char} {t : Token} (h : miscItem? (skipSpaces cs) = some (t, r))
    (fuel : Nat) : misc? (fuel + 1) cs = (misc? fuel r).map fun m => (t :: m.1, m.2) := by
  rw [misc?, Option.map_eq_bind]
  unfold miscItem? at h
  split at h
  · next hcs =>
    simp only [hcs, h, Option.bind_eq_bind, Option.bind_some]
    rfl
  · next hcs =>
    simp only [hcs, h, Option.bind_eq_bind, Option.bind_some]
    rfl
  · exact absurd h (by simp)

theorem misc?_cases {fuel : Nat} {cs r : List Char} {ts : List Token} (h : misc? (fuel + 1) cs = some (ts, r)) :
    (∃ t s ts', miscItem? (skipSpaces cs) = some (t, s) ∧ misc? fuel s = some (ts', r) ∧ ts = t :: ts') ∨
      ts = [] ∧ r = skipSpaces cs := by
  rw [misc?] at h
  split at h
  · next hcs =>
    simp only [Option.bind_eq_bind, Option.bind_eq_some_iff, Prod.exists, Option.some.injEq,
      Prod.mk.injEq] at h
    obtain ⟨t, s, hitem, ts', r', hm, rfl, rfl⟩ := h
    exact .inl ⟨t, s, ts', by rw [hcs]; exact hitem, hm, rfl⟩
  · next hcs =>
    simp only [Option.bind_eq_bind, Option.bind_eq_some_iff, Prod.exists, Option.some.injEq,
      Prod.mk.injEq] at h
    obtain ⟨t, s, hitem, ts', r', hm, rfl, rfl⟩ := h
    exact .inl ⟨t, s, ts', by rw [hcs]; exact hitem, hm, rfl⟩
  · simp only [Option.some.injEq, Prod.mk.injEq] at h
    exact .inr ⟨h.1.symm, h.2.symm⟩

/-- Comments and instructions in front of a document type declaration are closed and do not depend on it. -/
theorem misc?_exchange {fuel : Nat} {cs r x : List Char} {ts : List Token}
    (h : misc? fuel cs = some (ts, r)) (hfuel : cs.length ≤ fuel) (hr : skipSpaces r = keyword ++ x) :
    ∃ p, cs = p ++ (keyword ++ x) ∧ Closed p ∧ ∀ fuel' x', (p ++ (keyword ++ x')).length ≤ fuel' →
      misc? fuel' (p ++ (keyword ++ x')) = some (ts, keyword ++ x') := by
  induction fuel generalizing cs ts with
  | zero =>
    obtain rfl := List.eq_nil_of_length_eq_zero (Nat.le_zero.1 hfuel)
    simp only [misc?, Option.some.injEq, Prod.mk.injEq] at h
    rw [← h.2, keyword_eq] at hr
    exact absurd hr (by simp [skipSpaces])
  | succ fuel ih =>
    rcases misc?_cases h with ⟨t, s, ts', hitem, hs, rfl⟩ | ⟨rfl, rfl⟩
    · obtain ⟨b, rfl, hb⟩ := (closing_miscItem? t).skipped hitem
      have hshorter : s.length ≤ fuel := by
        simp only [List.length_append, List.length_cons] at hfuel
        omega
      obtain ⟨p, rfl, hp, hall⟩ := ih hs hshorter
      refine ⟨b ++ '>' :: p, by simp, by simpa using (closed_concat b).append hp, fun fuel' x' hfuel' => ?_⟩
      obtain ⟨n, rfl⟩ : ∃ n, fuel' = n + 1 := Nat.exists_eq_succ_of_ne_zero fun e => by simp [e] at hfuel'
      have hn : (p ++ (keyword ++ x')).length ≤ n := by
        simp only [List.length_append, List.length_cons] at hfuel' ⊢
        omega
      rw [List.append_assoc, List.cons_append, misc?_of_miscItem? (hb _), hall n x' hn, Option.map_some]
    · have hskip : skipSpaces cs = keyword ++ x := by
        rwa [skipSpaces, skipSpaces, List.dropWhile_idempotent] at hr
      have hall : ∀ c ∈ cs.takeWhile isSpace, isSpace c = true := fun c hc => List.mem_takeWhile_imp hc
      refine ⟨cs.takeWhile isSpace, by rw [← hskip]; exact eq_of_skipSpaces cs, closed_spaces cs,
        fun fuel' x' hfuel' => ?_⟩
      obtain ⟨n, rfl⟩ : ∃ n, fuel' = n + 1 :=
        Nat.exists_eq_succ_of_ne_zero fun e => by simp [e, keyword_eq] at hfuel'
      rw [misc?, skipSpaces, List.dropWhile_append_of_pos hall]
      rfl

def prolog? (cs : List Char) : Option (List Token × List Char) := do
  let cs ← undeclared? cs
  let (before, cs) ← misc? cs.length cs
  some (before, skipSpaces cs)

/-- A prolog is closed, and is read the same in front of any other document type declaration. -/
theorem prolog?_exchange {cs x : List Char} {before : List Token}
    (h : prolog? cs = some (before, keyword ++ x)) :
    ∃ front, cs = front ++ (keyword ++ x) ∧ Closed front ∧
      ∀ x', prolog? (front ++ (keyword ++ x')) = some (before, keyword ++ x') := by
  simp only [prolog?, Option.bind_eq_bind, Option.bind_eq_some_iff, Prod.exists, Option.some.injEq,
    Prod.mk.injEq] at h
  obtain ⟨r₁, h₁, ts, r₂, h₂, rfl, hskip⟩ := h
  obtain ⟨p, rfl, hp, hmisc⟩ := misc?_exchange h₂ le_rfl hskip
  obtain ⟨q, rfl, hq, hundeclared⟩ := undeclared?_exchange h₁
  refine ⟨q ++ p, by simp, hq.append hp, fun x' => ?_⟩
  rw [prolog?, List.append_assoc, hundeclared]
  simp only [Option.bind_eq_bind, Option.bind_some, hmisc _ x' le_rfl]
  rfl

def type? (cs : List Char) : Option (List Token × List Char) :=
  match after? keyword (skipSpaces cs) with
  | none => some ([], cs)
  | some cs => do
    let (type, cs) ← doctype? cs
    let (between, cs) ← misc? cs.length cs
    some (type ++ between, cs)

def element? (cs : List Char) : Option (List Token × List Char) :=
  match skipSpaces cs with
  | '<' :: cs => do
    let (tag, cs) ← tag? cs
    if entered tag then
      let (tokens, cs) ← content? (cs.length + 1) 1 cs
      some (tag ++ tokens, cs)
    else some (tag, cs)
  | cs => some ([], cs)

def finish? (read : List Token × List Char) : Option (List Token) := do
  let (following, cs) ← misc? read.2.length read.2
  if cs.isEmpty then some (read.1 ++ following) else none

theorem element?_bind {β : Type} (cs : List Char) (f : List Token × List Char → Option β) :
    (match skipSpaces cs with
      | '<' :: cs => (tag? cs).bind fun t =>
        if entered t.1 then (content? (t.2.length + 1) 1 t.2).bind fun c => f (t.1 ++ c.1, c.2)
        else f (t.1, t.2)
      | cs => f ([], cs)) = (element? cs).bind f := by
  unfold element?
  split
  · simp only [Option.bind_eq_bind, Option.bind_assoc]
    refine Option.bind_congr fun t _ => ?_
    split
    · simp only [Option.bind_assoc]
      rfl
    · rfl
  · rfl

theorem ite_bind {α β : Type} {c : Prop} [Decidable c] (a b : Option α) (f : α → Option β) :
    (if c then a.bind f else b.bind f) = (if c then a else b).bind f := by
  split <;> rfl

theorem Token.ofDocument?_eq (cs : List Char) : Token.ofDocument? cs = (do
    let cs ← undeclared? cs
    let (before, cs) ← misc? cs.length cs
    let (type, cs) ← type? cs
    let (element, cs) ← element? cs
    finish? (before ++ type ++ element, cs)) := by
  refine Eq.trans (ite_bind _ _ _) (Option.bind_congr fun r _ => Option.bind_congr fun m _ => ?_)
  obtain ⟨before, r⟩ := m
  unfold type? keyword
  simp only
  cases after? "<!DOCTYPE".toList (skipSpaces r) with
  | none => exact element?_bind r fun e => finish? (before ++ [] ++ e.1, e.2)
  | some inner =>
    simp only [Option.bind_eq_bind, Option.bind_assoc]
    refine Option.bind_congr fun t _ => Option.bind_congr fun b _ => ?_
    exact element?_bind b.2 fun e => finish? (before ++ (t.1 ++ b.1) ++ e.1, e.2)

/-- In a document that can be read the prolog can, and so can a document type declaration behind it. Another one
that ends at the same place takes its place among the tokens. -/
theorem prolog?_of_ofDocument? {cs : List Char} {ts : List Token} (h : Token.ofDocument? cs = some ts) :
    ∃ before rest, prolog? cs = some (before, rest) ∧
      ∀ inner, after? keyword rest = some inner → ∃ type after behind,
        doctype? inner = some (type, after) ∧ ts = before ++ type ++ behind ∧
        ∀ cs' inner' type', prolog? cs' = some (before, keyword ++ inner') →
          doctype? inner' = some (type', after) →
          Token.ofDocument? cs' = some (before ++ type' ++ behind) := by
  simp only [Token.ofDocument?_eq, finish?, Option.bind_eq_bind, Option.bind_eq_some_iff, Prod.exists,
    Option.ite_none_right_eq_some, Option.some.injEq] at h
  obtain ⟨r₁, h₁, before, r₂, h₂, type, r₃, h₃, element, r₄, h₄, following, r₅, h₅, hend, rfl⟩ := h
  have hprolog : prolog? cs = some (before, skipSpaces r₂) := by
    simp only [prolog?, h₁, h₂, Option.bind_eq_bind, Option.bind_some]
  refine ⟨before, skipSpaces r₂, hprolog, fun inner hin => ?_⟩
  simp only [type?, hin, Option.bind_eq_bind, Option.bind_eq_some_iff, Prod.exists, Option.some.injEq,
    Prod.mk.injEq] at h₃
  obtain ⟨declared, after, hdeclared, between, r₃, hbetween, rfl, rfl⟩ := h₃
  refine ⟨declared, after, between ++ element ++ following, hdeclared, by simp, ?_⟩
  intro cs' inner' declared' hprolog' hdeclared'
  simp only [prolog?, Option.bind_eq_bind, Option.bind_eq_some_iff, Prod.exists, Option.some.injEq,
    Prod.mk.injEq] at hprolog'
  obtain ⟨s₁, hs₁, _, s₂, hs₂, rfl, hskip⟩ := hprolog'
  have htype : type? s₂ = some (declared' ++ between, r₃) := by
    simp only [type?, hskip, after?_self, hdeclared', hbetween, Option.bind_eq_bind, Option.bind_some]
  simp only [Token.ofDocument?_eq, hs₁, hs₂, htype, h₄, finish?, h₅, hend, if_true, Option.bind_eq_bind,
    Option.bind_some, List.append_assoc]

end Tabulate.Xml
