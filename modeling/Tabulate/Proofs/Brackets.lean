import Tabulate.Proofs.Offsets
import Tabulate.Proofs.Places

/-! How a step is cut into its name and the texts in its brackets, and a predicate at its equals sign. The
program counts brackets and bytes; here the same cuts are made character by character, and it is shown where
the program is stopped while it counts. -/
namespace Tabulate

open Text (byteLength charIndices trim)

namespace Path

def brackets (n : Nesting) (inner : List Char) : List Char → Option (List (List Char))
  | [] => some []
  | c :: cs =>
    if n.quote.isSome ∨ c = '\'' ∨ c = '"' then brackets (n.after c) (c :: inner) cs
    else if c = '[' then brackets (n.after c) (if n.depth = 0 then [] else c :: inner) cs
    else if n.depth = 0 then none
    else if c = ']' ∧ n.depth = 1 then (brackets (n.after c) (c :: inner) cs).map (inner.reverse :: ·)
    else brackets (n.after c) (c :: inner) cs

/-- Whether a bracket is closed that was not opened, before anything stands behind the predicates. -/
def overcloses (n : Nesting) : List Char → Bool
  | [] => false
  | c :: cs =>
    if n.quote.isSome ∨ c = '\'' ∨ c = '"' ∨ c = '[' then overcloses (n.after c) cs
    else if c = ']' then n.depth = 0 || overcloses (n.after c) cs
    else n.depth ≠ 0 && overcloses (n.after c) cs

end Path

section Brackets
variable {n : Nesting} {c : Char} {cs inner : List Char} {ts : List (List Char)}

/-- In a literal, or at one of its quotes, a character is taken in and nothing else. -/
theorem brackets_quoted (h : n.quote.isSome = true ∨ c = '\'' ∨ c = '"') (inner cs : List Char) :
    Path.brackets n inner (c :: cs) = Path.brackets (n.after c) (c :: inner) cs := by
  rw [Path.brackets, if_pos h]

theorem brackets_open (d : Int) (inner cs : List Char) : Path.brackets ⟨d, none⟩ inner ('[' :: cs) =
    Path.brackets ⟨d + 1, none⟩ (if d = 0 then [] else '[' :: inner) cs := by
  rw [Path.brackets, if_neg (by simp), if_pos rfl]
  rfl

theorem brackets_close (d : Int) (inner cs : List Char) : Path.brackets ⟨d, none⟩ inner (']' :: cs) =
    if d = 0 then none
    else if d = 1 then (Path.brackets {} (']' :: inner) cs).map (inner.reverse :: ·)
    else Path.brackets ⟨d - 1, none⟩ (']' :: inner) cs := by
  rw [Path.brackets, if_neg (by simp), if_neg (by simp), Nesting.after_close]
  by_cases hone : d = 1
  · subst hone
    rfl
  · have hlater : ¬(']' = ']' ∧ d = 1) := fun h => hone h.2
    rw [if_neg hlater, if_neg hone]

theorem brackets_other {d : Int} (hquote : ¬(c = '\'' ∨ c = '"')) (hopen : c ≠ '[') (hclose : c ≠ ']')
    (inner cs : List Char) : Path.brackets ⟨d, none⟩ inner (c :: cs) =
      if d = 0 then none else Path.brackets ⟨d, none⟩ (c :: inner) cs := by
  have hplain : ¬((none : Option Char).isSome = true ∨ c = '\'' ∨ c = '"') := by simpa using hquote
  have hlater : ¬(c = ']' ∧ d = 1) := fun h => hclose h.1
  rw [Path.brackets, if_neg hplain, if_neg hopen, if_neg hlater, Nesting.after_other hquote hopen hclose]

theorem overcloses_quoted (h : n.quote.isSome = true ∨ c = '\'' ∨ c = '"') (cs : List Char) :
    Path.overcloses n (c :: cs) = Path.overcloses (n.after c) cs := by
  rw [Path.overcloses, if_pos (by tauto)]

theorem overcloses_open (d : Int) (cs : List Char) :
    Path.overcloses ⟨d, none⟩ ('[' :: cs) = Path.overcloses ⟨d + 1, none⟩ cs := by
  rw [Path.overcloses, if_pos (by simp)]
  rfl

theorem overcloses_close (d : Int) (cs : List Char) :
    Path.overcloses ⟨d, none⟩ (']' :: cs) = (d = 0 || Path.overcloses ⟨d - 1, none⟩ cs) := by
  rw [Path.overcloses, if_neg (by simp), if_pos rfl, Nesting.after_close]

theorem overcloses_other {d : Int} (hquote : ¬(c = '\'' ∨ c = '"')) (hopen : c ≠ '[') (hclose : c ≠ ']')
    (cs : List Char) : Path.overcloses ⟨d, none⟩ (c :: cs) = (d ≠ 0 && Path.overcloses ⟨d, none⟩ cs) := by
  have hplain : ¬((none : Option Char).isSome = true ∨ c = '\'' ∨ c = '"' ∨ c = '[') := by
    simpa [hopen] using hquote
  rw [Path.overcloses, if_neg hplain, if_neg hclose, Nesting.after_other hquote hopen hclose]

theorem overcloses_of_never (h : Nesting.never ']' n cs = true) : Path.overcloses n cs = false := by
  induction cs generalizing n with
  | nil => rfl
  | cons c cs ih =>
    rw [Nesting.never, Bool.and_eq_true, Bool.not_eq_true'] at h
    have hrest := ih h.2
    rw [Path.overcloses, hrest]
    split
    · rfl
    · next hc =>
      rw [not_or, Bool.not_eq_true, Option.isSome_eq_false_iff] at hc
      split
      · next hclose =>
        have hout := h.1
        rw [Nesting.outside, hc.1, decide_eq_true hclose, Bool.and_true, Bool.and_true] at hout
        rw [hout, Bool.false_or]
      · exact Bool.and_false _

/-- Where a bracket is closed that was not opened, no predicates are found. -/
theorem brackets_of_overcloses (h : Path.overcloses n cs = true) (inner : List Char) :
    Path.brackets n inner cs = none := by
  induction cs generalizing n inner with
  | nil => cases h
  | cons c cs ih =>
    cases n.meets c with
    | quoted hq =>
      rw [overcloses_quoted hq] at h
      rw [brackets_quoted hq]
      exact ih h _
    | opening d =>
      rw [overcloses_open] at h
      rw [brackets_open]
      exact ih h _
    | closing d =>
      rw [overcloses_close, Bool.or_eq_true, decide_eq_true_eq] at h
      rw [brackets_close]
      by_cases hzero : d = 0
      · exact if_pos hzero
      have h := h.resolve_left hzero
      rw [if_neg hzero]
      split
      · next hone =>
        subst hone
        rw [ih (n := {}) h]
        rfl
      · exact ih h _
    | other hquote hopen hclose =>
      rw [overcloses_other hquote hopen hclose, Bool.and_eq_true, decide_eq_true_eq] at h
      rw [brackets_other hquote hopen hclose, if_neg h.1]
      exact ih h.2 _

def Inside (n : Nesting) (inner : List Char) : Prop :=
  n.depth = 0 ∨ (Nesting.never ']' {} inner.reverse = true ∧ Nesting.afterAll {} inner.reverse = n.lower 1)

theorem Inside.more (h : Inside n inner) (hclose : c = ']' → (n.lower 1).outside = false)
    (hdepth : n.depth = 0 → (n.after c).depth = 0) : Inside (n.after c) (c :: inner) := by
  refine h.imp hdepth fun ⟨hnever, hafter⟩ => ?_
  rw [List.reverse_cons, Nesting.never_append_iff, Nesting.afterAll_append, hafter, ← Nesting.after_lower]
  refine ⟨⟨hnever, ?_⟩, rfl⟩
  by_cases hc : c = ']'
  · rw [Nesting.never, hclose hc]
    rfl
  · simp [Nesting.never, hc]

/-- Of the texts in brackets none closes a bracket that it has not opened. -/
theorem never_of_brackets (h : Inside n inner) (hts : Path.brackets n inner cs = some ts) :
    ∀ t ∈ ts, Nesting.never ']' {} t = true := by
  induction cs generalizing n inner ts with
  | nil =>
    cases hts
    exact List.forall_mem_nil _
  | cons c cs ih =>
    cases n.meets c with
    | quoted hq =>
      rw [brackets_quoted hq] at hts
      refine ih (h.more ?_ fun hd => (Nesting.depth_after_quoted hq).trans hd) hts
      rintro rfl
      have hquote : n.quote.isSome = true := hq.resolve_right (by decide)
      simpa [Nesting.outside, Nesting.lower] using fun _ => hquote
    | opening d =>
      rw [brackets_open] at hts
      refine ih ?_ hts
      split
      · next hd =>
        subst hd
        exact .inr ⟨rfl, rfl⟩
      · next hd => exact h.more (c := '[') (by simp) fun hzero => absurd hzero hd
    | closing d =>
      rw [brackets_close] at hts
      split at hts
      · cases hts
      split at hts
      · next hd =>
        obtain ⟨us, hus, rfl⟩ := Option.map_eq_some_iff.1 hts
        subst hd
        exact List.forall_mem_cons.2 ⟨(h.resolve_left (by decide)).1, ih (.inl rfl) hus⟩
      · next hzero hone =>
        refine ih (h.more (c := ']') (fun _ => ?_) fun h => absurd h hzero) hts
        have hinside : ¬d - 1 = 0 := fun he => hone (Int.sub_eq_zero.1 he)
        simp [Nesting.outside, Nesting.lower, hinside]
    | @other d c hquote hopen hclose =>
      rw [brackets_other hquote hopen hclose] at hts
      split at hts
      · cases hts
      · next hd =>
        have hmore := h.more (c := c) (fun hc => absurd hc hclose) fun hzero => absurd hzero hd
        rw [Nesting.after_other hquote hopen hclose] at hmore
        exact ih hmore hts

end Brackets

/-! ### Steps -/

section Steps
variable {head rest : List Char}

theorem slice_append (as bs cs : List Char) :
    Path.slice (as ++ bs ++ cs) (byteLength as) (byteLength (as ++ bs)) = .ok bs := by
  rw [Path.slice, Text.slice?_append]

theorem bind_of_cut {α : Type} {x : Except PathFault (List (List Char))} {stopped : Bool} {fault : PathFault}
    {ts : Option (List (List Char))} (h : x = if stopped then .error .belowZero else ts.elim (.error fault) .ok)
    (k : List (List Char) → α) : (x >>= fun us => pure (k us)) =
      if stopped then .error .belowZero else ts.elim (.error fault) fun us => .ok (k us) := by
  subst h
  cases stopped with
  | true => rfl
  | false => cases ts <;> rfl

/-- The program is stopped at the first bracket that is closed and was not opened, and finds the texts in
brackets otherwise. -/
theorem predicateTexts_eq {raw cs pre inner : List Char} {n : Nesting} {depth opened : Nat} (hraw : raw = pre ++ cs)
    (hdepth : n.depth = depth)
    (hopened : depth = 0 ∨ ∃ front, pre = front ++ '[' :: inner.reverse ∧ opened = byteLength front) :
    Path.predicateTexts raw depth n.quote opened (charIndices (byteLength pre) cs) =
      if Path.overcloses n cs then .error .belowZero
      else (Path.brackets n inner cs).elim (.error (.afterPredicate (String.ofList raw))) .ok := by
  -- `pre` has been read, and `inner` is what it holds behind the last bracket that was opened outside of others
  induction cs generalizing n depth opened pre inner with
  | nil => rfl
  | cons c cs ih =>
    have hnext {m : Nesting} {k o : Nat} {t : List Char} (hm : m.depth = k)
        (ho : k = 0 ∨ ∃ front, pre ++ [c] = front ++ '[' :: t.reverse ∧ o = byteLength front) :
        Path.predicateTexts raw k m.quote o (charIndices (byteLength pre + c.utf8Size) cs) =
          if Path.overcloses m cs then .error .belowZero
          else (Path.brackets m t cs).elim (.error (.afterPredicate (String.ofList raw))) .ok := by
      have hnext : raw = pre ++ [c] ++ cs := by rw [hraw, List.append_assoc, List.singleton_append]
      have hih := ih hnext hm ho
      rwa [Text.byteLength_concat] at hih
    have hkeep : depth = 0 ∨ ∃ front, pre ++ [c] = front ++ '[' :: (c :: inner).reverse ∧ opened = byteLength front := by
      refine hopened.imp_right ?_
      rintro ⟨front, rfl, ho⟩
      exact ⟨front, by simp, ho⟩
    obtain ⟨d, quote⟩ := n
    obtain rfl : d = depth := hdepth
    rw [charIndices]
    cases quote with
    | some q =>
      rw [Path.predicateTexts, brackets_quoted (.inl rfl), overcloses_quoted (.inl rfl), Nesting.after_literal]
      exact hnext (m := ⟨depth, if c = q then none else some q⟩) rfl hkeep
    | none =>
      rw [Path.predicateTexts]
      by_cases hquote : c = '\'' ∨ c = '"'
      · rw [if_pos hquote, brackets_quoted (.inr hquote), overcloses_quoted (.inr hquote), Nesting.after_quote _ hquote]
        exact hnext (m := ⟨depth, some c⟩) rfl hkeep
      rw [if_neg hquote]
      by_cases hopen : c = '['
      · subst hopen
        rw [if_pos rfl, overcloses_open, brackets_open]
        refine hnext (m := ⟨depth + 1, none⟩) rfl (.inr ?_)
        by_cases hzero : depth = 0
        · subst hzero
          exact ⟨pre, rfl, rfl⟩
        · rw [if_neg hzero, if_neg (by omega)]
          exact hkeep.resolve_left hzero
      rw [if_neg hopen]
      by_cases hclose : c = ']'
      · subst hclose
        rw [if_pos rfl, overcloses_close, brackets_close]
        cases depth with
        | zero => rfl
        | succ depth =>
          have hless : ((depth + 1 : Nat) : Int) - 1 = depth := by omega
          have hpos : ((depth + 1 : Nat) : Int) ≠ 0 := by omega
          have hcount {β : Type} (f : Nat → Except PathFault β) : Path.countDown (depth + 1) >>= f = f depth := rfl
          rw [hcount, decide_eq_false hpos, Bool.false_or, hless, if_neg hpos]
          by_cases hzero : depth = 0
          · subst hzero
            obtain ⟨front, rfl, rfl⟩ := hopened.resolve_left Nat.one_ne_zero
            have htext : Path.slice raw (byteLength front + 1) (byteLength (front ++ '[' :: inner.reverse)) =
                .ok inner.reverse := by
              have hslice := slice_append (front ++ ['[']) inner.reverse (']' :: cs)
              rwa [List.append_assoc front, List.singleton_append, ← hraw, Text.byteLength_append front] at hslice
            have hrest := hnext (m := {}) (k := 0) (t := ']' :: inner) (o := byteLength front) rfl (.inl rfl)
            rw [if_pos rfl, htext, if_pos (show ((0 + 1 : Nat) : Int) = 1 from rfl), Option.elim_map]
            exact bind_of_cut hrest _
          · have hkeep := hkeep.resolve_left (Nat.succ_ne_zero depth)
            have hone : ((depth + 1 : Nat) : Int) ≠ 1 := by omega
            rw [if_neg hzero, if_neg hone]
            exact hnext (m := ⟨depth, none⟩) rfl (.inr hkeep)
      · rw [if_neg hclose, overcloses_other hquote hopen hclose, brackets_other hquote hopen hclose]
        by_cases hzero : depth = 0
        · subst hzero
          rfl
        · have hne : (depth : Int) ≠ 0 := by omega
          rw [if_neg hzero, if_neg hne, decide_eq_true hne, Bool.true_and]
          exact hnext (m := ⟨depth, none⟩) rfl hkeep

theorem exists_head (cs : List Char) :
    ∃ head rest, cs = head ++ rest ∧ '[' ∉ head ∧ (rest = [] ∨ ∃ r, rest = '[' :: r) := by
  refine ⟨cs.takeWhile (· != '['), cs.dropWhile (· != '['), List.takeWhile_append_dropWhile.symm,
    fun hc => absurd (List.mem_takeWhile_imp hc) (by decide), ?_⟩
  cases hr : cs.dropWhile (· != '[') with
  | nil => exact .inl rfl
  | cons c r =>
    have hhead := List.head?_dropWhile_not (· != '[') cs
    rw [hr] at hhead
    have hc : c = '[' := by simpa using hhead
    exact .inr ⟨r, by rw [hc]⟩

section Head
variable (hhead : '[' ∉ head)
include hhead

theorem bne_of_mem_head : ∀ c ∈ head, (c != '[') = true := by
  intro c hc
  rw [bne_iff_ne]
  rintro rfl
  exact hhead hc

variable (hrest : rest = [] ∨ ∃ r, rest = '[' :: r)
include hrest

theorem takeWhile_head : (head ++ rest).takeWhile (· != '[') = head := by
  rw [List.takeWhile_append_of_pos (bne_of_mem_head hhead)]
  rcases hrest with rfl | ⟨r, rfl⟩ <;> simp

theorem dropWhile_head : (head ++ rest).dropWhile (· != '[') = rest := by
  rw [List.dropWhile_append_of_pos (bne_of_mem_head hhead)]
  rcases hrest with rfl | ⟨r, rfl⟩ <;> simp

theorem cutStep_append : Path.cutStep (head ++ rest) =
    if Path.overcloses {} rest then .error .belowZero
    else (Path.brackets {} [] rest).elim (.error (.afterPredicate (String.ofList (head ++ rest))))
      fun ts => .ok (head, ts) := by
  have hindices : charIndices 0 (head ++ rest) = charIndices 0 head ++ charIndices (byteLength head) rest := by
    rw [Text.charIndices_append, Nat.zero_add]
  have hnone : (charIndices 0 head).find? (·.2 = '[') = none := by
    rw [List.find?_eq_none]
    rintro ⟨i, c⟩ hx
    have hc := (Text.mem_charIndices hx).1
    rw [decide_eq_true_eq]
    rintro rfl
    exact hhead hc
  rw [Path.cutStep, hindices, List.find?_append, hnone, Option.none_or]
  obtain rfl | ⟨r, rfl⟩ := hrest
  · rw [List.append_nil]
    rfl
  · have hdrop : (charIndices 0 head ++ charIndices (byteLength head) ('[' :: r)).dropWhile (·.1 < byteLength head) =
        charIndices (byteLength head) ('[' :: r) := by
      rw [List.dropWhile_append_of_pos]
      · simp [charIndices]
      · rintro ⟨i, c⟩ hx
        have hi := (Text.mem_charIndices hx).2.2
        rw [decide_eq_true_eq]
        simpa using hi
    have hslice : Path.slice (head ++ '[' :: r) 0 (byteLength head) = .ok head := slice_append [] head ('[' :: r)
    have hfind : (charIndices (byteLength head) ('[' :: r)).find? (·.2 = '[') = some (byteLength head, '[') := rfl
    have htexts : Path.predicateTexts (head ++ '[' :: r) 0 none (byteLength head)
        (charIndices (byteLength head) ('[' :: r)) = if Path.overcloses {} ('[' :: r) then .error .belowZero
          else (Path.brackets {} [] ('[' :: r)).elim (.error (.afterPredicate (String.ofList (head ++ '[' :: r)))) .ok :=
      predicateTexts_eq (n := {}) rfl rfl (.inl rfl)
    rw [hfind]
    dsimp only
    rw [hslice, hdrop]
    exact bind_of_cut htexts _

end Head

def behindName (text : List Char) : List Char := (trim text).dropWhile (· != '[')

/-- A step is cut at its first bracket. -/
theorem cutStep_eq (text : List Char) : Path.cutStep (trim text) =
    if Path.overcloses {} (behindName text) then .error .belowZero
    else (Path.brackets {} [] (behindName text)).elim (.error (.afterPredicate (String.ofList (trim text))))
      fun ts => .ok ((trim text).takeWhile (· != '['), ts) := by
  obtain ⟨head, rest, htrim, hbracket, hrest⟩ := exists_head (trim text)
  rw [behindName, htrim, cutStep_append hbracket hrest, takeWhile_head hbracket hrest, dropWhile_head hbracket hrest]

end Steps

/-! ### Predicates -/

section Predicates
variable {n : Nesting} {cs : List Char}

/-- Where no bracket is closed that was not opened it does not matter that the count stays at zero. -/
theorem equalsAt_eq (hnever : Nesting.never ']' n cs = true) {depth : Nat} (hdepth : n.depth = depth) (i : Nat) :
    Path.equalsAt depth n.quote (charIndices i cs) = (Nesting.cutAt '=' n cs).map fun r => i + byteLength r.1 := by
  induction cs generalizing n depth i with
  | nil => rfl
  | cons c cs ih =>
    rw [Nesting.never, Bool.and_eq_true, Bool.not_eq_true'] at hnever
    obtain ⟨hclosed, hrest⟩ := hnever
    have hnext {k : Nat} (hk : (n.after c).depth = k) (hcut : (n.outside && c = '=') = false) :
        Path.equalsAt k (n.after c).quote (charIndices (i + c.utf8Size) cs) =
          (Nesting.cutAt '=' n (c :: cs)).map fun r => i + byteLength r.1 := by
      rw [ih hrest hk, Nesting.cutAt, hcut, if_neg Bool.false_ne_true, Option.map_map]
      congr 1
      funext r
      rw [Function.comp_apply, Text.byteLength_cons, Nat.add_assoc]
    obtain ⟨d, quote⟩ := n
    obtain rfl : d = depth := hdepth
    rw [charIndices]
    cases quote with
    | some q =>
      rw [Nesting.after_literal] at hnext
      rw [Path.equalsAt]
      exact hnext rfl (by simp [Nesting.outside])
    | none =>
      rw [Path.equalsAt]
      by_cases hquote : c = '\'' ∨ c = '"'
      · rw [Nesting.after_quote _ hquote] at hnext
        rw [if_pos hquote]
        exact hnext rfl (by rcases hquote with rfl | rfl <;> simp)
      rw [if_neg hquote]
      by_cases hopen : c = '['
      · subst hopen
        rw [if_pos rfl]
        exact hnext (k := depth + 1) rfl (by simp)
      rw [if_neg hopen]
      by_cases hclose : c = ']'
      · subst hclose
        have hpos : depth ≠ 0 := by
          rintro rfl
          exact absurd hclosed (by decide)
        rw [if_pos rfl]
        refine hnext (k := depth - 1) ?_ (by simp)
        rw [Nesting.after_close]
        dsimp only
        omega
      rw [if_neg hclose]
      by_cases hequals : c = '=' ∧ depth = 0
      · obtain ⟨rfl, rfl⟩ := hequals
        rfl
      · rw [Nesting.after_other hquote hopen hclose] at hnext
        rw [if_neg hequals]
        refine hnext rfl ?_
        rw [Bool.eq_false_iff, ne_eq, Bool.and_eq_true, decide_eq_true_eq, Nesting.outside_iff]
        rintro ⟨hout, rfl⟩
        exact hequals ⟨rfl, by simpa using congrArg Nesting.depth hout⟩

/-- A predicate is cut at the first equals sign outside of brackets and literals. -/
theorem predicate_eq {inner : List Char → Except PathError Path} {source text : List Char}
    (hnever : Nesting.never ']' {} text = true) : Path.predicate inner source text =
      if (trim text).isEmpty then Path.blame source (.error .emptyPredicate)
      else if trim text = "last()".toList then .ok .last
      else match Path.number? (trim text) with
        | some 0 => Path.blame source (.error .positionZero)
        | some n => .ok (.position n)
        | none =>
          match Nesting.cutAt '=' {} (trim text) with
          | some (left, right) =>
            (inner (trim left)).map (.equals · (String.ofList (Path.unquote (trim right))))
          | none => (inner (trim text)).map .holds := by
  have hzero : ({} : Nesting).depth = (0 : Nat) := rfl
  have hequals := equalsAt_eq (Nesting.never_trim hnever) hzero 0
  rw [Path.predicate, hequals]
  cases hcut : Nesting.cutAt '=' {} (trim text) with
  | none => rfl
  | some lr =>
    obtain ⟨left, right⟩ := lr
    have hexpr := (Nesting.cutAt_eq_some hcut).1
    have hleft : Path.slice (trim text) 0 (0 + byteLength left) = .ok left := by
      have hslice := slice_append [] left ('=' :: right)
      rw [List.nil_append] at hslice
      rwa [hexpr, Nat.zero_add]
    have hright : Path.slice (trim text) (0 + byteLength left + 1) (byteLength (trim text)) = .ok right := by
      have hslice := slice_append (left ++ ['=']) right []
      rw [List.append_nil, List.append_assoc, List.singleton_append, Text.byteLength_append left] at hslice
      rwa [hexpr, Nat.zero_add]
    dsimp only [Option.map_some]
    rw [hleft, hright]
    rfl

end Predicates

end Tabulate
