import Tabulate.Text.Utf8

/-! Places in texts counted in bytes. A character takes up from one byte to four, and a text is cut between
characters only. -/
namespace Tabulate.Text

section Bytes
variable {cs : List Char} {c : Char} {i j : Nat}

theorem byteLength_cons (c : Char) (cs : List Char) : byteLength (c :: cs) = c.utf8Size + byteLength cs := rfl

theorem byteLength_append (as bs : List Char) : byteLength (as ++ bs) = byteLength as + byteLength bs := by
  induction as with
  | nil => exact (Nat.zero_add _).symm
  | cons a as ih => rw [List.cons_append, byteLength_cons, ih, byteLength_cons, Nat.add_assoc]

theorem byteLength_concat (cs : List Char) (c : Char) : byteLength (cs ++ [c]) = byteLength cs + c.utf8Size := by
  rw [byteLength_append, byteLength_cons]
  rfl

theorem charIndices_append (i : Nat) (as bs : List Char) :
    charIndices i (as ++ bs) = charIndices i as ++ charIndices (i + byteLength as) bs := by
  induction as generalizing i with
  | nil => rfl
  | cons a as ih =>
    rw [List.cons_append, charIndices, charIndices, ih, List.cons_append, Nat.add_assoc, byteLength_cons]

theorem charIndices_snd (i : Nat) (cs : List Char) : (charIndices i cs).map Prod.snd = cs := by
  induction cs generalizing i with
  | nil => rfl
  | cons c cs ih => rw [charIndices, List.map_cons, ih]

/-- Characters begin within the text. -/
theorem mem_charIndices (h : (j, c) ∈ charIndices i cs) : c ∈ cs ∧ i ≤ j ∧ j < i + byteLength cs := by
  induction cs generalizing i with
  | nil => cases h
  | cons a cs ih =>
    have hlength := byteLength_cons a cs
    have hpos := a.utf8Size_pos
    rcases List.mem_cons.1 h with he | hmem
    · have hj : j = i := congrArg Prod.fst he
      have hc : c = a := congrArg Prod.snd he
      exact ⟨hc ▸ List.mem_cons_self, by omega, by omega⟩
    · obtain ⟨hc, hi, hj⟩ := ih hmem
      exact ⟨List.mem_cons_of_mem a hc, by omega, by omega⟩

theorem mem_boundaries (as bs : List Char) : byteLength as ∈ boundaries (as ++ bs) := by
  rw [boundaries, List.mem_append, charIndices_append, List.map_append, List.mem_append]
  cases bs with
  | nil => exact .inr (by simp)
  | cons b bs => exact .inl (.inr (by simp [charIndices]))

/-- What stands between two other texts is cut out between their ends. -/
theorem slice?_append (as bs cs : List Char) :
    slice? (as ++ bs ++ cs) (byteLength as) (byteLength (as ++ bs)) = some bs := by
  have hstart : byteLength as ∈ boundaries (as ++ bs ++ cs) := by
    rw [List.append_assoc]
    exact mem_boundaries as (bs ++ cs)
  have hle : byteLength as ≤ byteLength (as ++ bs) := by
    rw [byteLength_append]
    exact Nat.le_add_right ..
  rw [slice?, if_pos ⟨hle, hstart, mem_boundaries (as ++ bs) cs⟩, charIndices_append, charIndices_append,
    List.filter_append, List.filter_append, Nat.zero_add, Nat.zero_add]
  have hbefore : (charIndices 0 as).filter (fun x => byteLength as ≤ x.1 && x.1 < byteLength (as ++ bs)) = [] := by
    rw [List.filter_eq_nil_iff]
    rintro ⟨k, c⟩ hx
    have hk := (mem_charIndices hx).2
    rw [Bool.and_eq_true, decide_eq_true_eq, decide_eq_true_eq]
    omega
  have hinside : (charIndices (byteLength as) bs).filter
      (fun x => byteLength as ≤ x.1 && x.1 < byteLength (as ++ bs)) = charIndices (byteLength as) bs := by
    rw [List.filter_eq_self]
    rintro ⟨k, c⟩ hx
    have hk := (mem_charIndices hx).2
    rw [← byteLength_append] at hk
    rw [Bool.and_eq_true, decide_eq_true_eq, decide_eq_true_eq]
    exact hk
  have hbehind : (charIndices (byteLength (as ++ bs)) cs).filter
      (fun x => byteLength as ≤ x.1 && x.1 < byteLength (as ++ bs)) = [] := by
    rw [List.filter_eq_nil_iff]
    rintro ⟨k, c⟩ hx
    have hk := (mem_charIndices hx).2
    rw [Bool.and_eq_true, decide_eq_true_eq, decide_eq_true_eq]
    omega
  rw [hbefore, hinside, hbehind, List.nil_append, List.append_nil, charIndices_snd]

example : slice? ['a', 'é', 'b'] 1 3 = some ['é'] ∧ slice? ['a', 'é', 'b'] 2 3 = none := by decide

end Bytes

end Tabulate.Text
