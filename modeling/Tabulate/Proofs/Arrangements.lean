import Mathlib.Data.List.Sort
import Tabulate.Proofs.Preparations

/-! The order of columns. Sorting by the places that an order gives to names is stable, so columns stand as the order
names them, and behind them all that it does not name, as they stood. -/
namespace Tabulate.Store

def arranged : List String → List Column → List Column
  | [], cs => cs
  | n :: order, cs => cs.filter (·.name = n) ++ arranged order (cs.filter (·.name ≠ n))

/-- Lists that ascend are the same if they hold the same at every height. -/
theorem eq_of_ascending {α : Type} {height : α → Nat} {xs ys : List α}
    (hxs : xs.Pairwise fun a b => height a ≤ height b) (hys : ys.Pairwise fun a b => height a ≤ height b)
    (h : ∀ k, xs.filter (height · = k) = ys.filter (height · = k)) : xs = ys := by
  have hmem (a : α) : a ∈ xs ↔ a ∈ ys := by
    have ha := congrArg (a ∈ ·) (h (height a))
    simpa using ha
  induction xs generalizing ys with
  | nil => exact (List.eq_nil_iff_forall_not_mem.2 fun a ha => nomatch (hmem a).2 ha).symm
  | cons x xs ih =>
    cases ys with
    | nil => cases (hmem x).1 List.mem_cons_self
    | cons y ys =>
      rw [List.pairwise_cons] at hxs hys
      -- neither of the first members is higher than the other
      have hle : height x ≤ height y ∧ height y ≤ height x := by
        have hx := (hmem x).1 List.mem_cons_self
        have hy := (hmem y).2 List.mem_cons_self
        grind
      have hsame : height y = height x := Nat.le_antisymm hle.2 hle.1
      have hfirst := h (height x)
      rw [List.filter_cons_of_pos (by simp), List.filter_cons_of_pos (by simpa using hsame)] at hfirst
      obtain ⟨rfl, -⟩ := List.cons.inj hfirst
      have hrest (k : Nat) : xs.filter (height · = k) = ys.filter (height · = k) := by
        have hk := h k
        rw [List.filter_cons, List.filter_cons] at hk
        split at hk
        · exact (List.cons.inj hk).2
        · exact hk
      refine congrArg (x :: ·) (ih hxs.2 hys.2 hrest fun a => ?_)
      have ha := congrArg (a ∈ ·) (hrest (height a))
      simpa using ha

section Arranged
variable {order : List String} {cs : List Column}

def place (order : List String) (c : Column) : Nat := order.findIdx (· = c.name)

theorem place_cons (n : String) (order : List String) (c : Column) :
    place (n :: order) c = if c.name = n then 0 else place order c + 1 := by
  rw [place, List.findIdx_cons, place]
  by_cases h : c.name = n
  · simp [h]
  · simp [h, Ne.symm h]

theorem arranged_perm (order : List String) (cs : List Column) : (arranged order cs).Perm cs := by
  induction order generalizing cs with
  | nil => exact .refl cs
  | cons n order ih =>
    have hparts := List.filter_append_perm (fun c : Column => decide (c.name = n)) cs
    simp only [arranged, ne_eq, decide_not]
    exact ((ih _).append_left _).trans hparts

/-- What the rest of an order arranges has other names. -/
theorem name_ne_of_mem_arranged {n : String} {c : Column} (hc : c ∈ arranged order (cs.filter (·.name ≠ n))) :
    c.name ≠ n := by
  simpa using (List.mem_filter.1 ((arranged_perm order _).mem_iff.1 hc)).2

theorem arranged_ascends (order : List String) (cs : List Column) :
    (arranged order cs).Pairwise fun a b => place order a ≤ place order b := by
  induction order generalizing cs with
  | nil => exact List.pairwise_of_forall fun _ _ => Nat.le_refl 0
  | cons n order ih =>
    have hfirst {c : Column} (hc : c ∈ cs.filter (·.name = n)) : place (n :: order) c = 0 := by
      rw [place_cons, if_pos (by simpa using (List.mem_filter.1 hc).2)]
    rw [arranged, List.pairwise_append]
    refine ⟨?_, ?_, fun a ha b _ => ?_⟩
    · refine List.pairwise_of_forall_mem_list fun a ha b _ => ?_
      rw [hfirst ha]
      exact Nat.zero_le _
    · refine (ih _).imp_of_mem fun ha hb hle => ?_
      rw [place_cons, place_cons, if_neg (name_ne_of_mem_arranged ha), if_neg (name_ne_of_mem_arranged hb)]
      exact Nat.succ_le_succ hle
    · rw [hfirst ha]
      exact Nat.zero_le _

theorem filter_arranged (order : List String) (cs : List Column) (k : Nat) :
    (arranged order cs).filter (place order · = k) = cs.filter (place order · = k) := by
  induction order generalizing cs k with
  | nil => rfl
  | cons n order ih =>
    rw [arranged, List.filter_append, List.filter_filter]
    cases k with
    | zero =>
      have hrest : (arranged order (cs.filter (·.name ≠ n))).filter (place (n :: order) · = 0) = [] := by
        refine List.filter_eq_nil_iff.2 fun c hc => ?_
        rw [place_cons, if_neg (name_ne_of_mem_arranged hc)]
        simp
      rw [hrest, List.append_nil]
      refine List.filter_congr fun c _ => ?_
      rw [place_cons]
      by_cases hn : c.name = n <;> simp [hn]
    | succ k =>
      have hnamed : cs.filter (fun c => decide (place (n :: order) c = k + 1) && decide (c.name = n)) = [] := by
        refine List.filter_eq_nil_iff.2 fun c _ => ?_
        rw [place_cons]
        by_cases hn : c.name = n <;> simp [hn]
      have hrest : (arranged order (cs.filter (·.name ≠ n))).filter (place (n :: order) · = k + 1) =
          (arranged order (cs.filter (·.name ≠ n))).filter (place order · = k) := by
        refine List.filter_congr fun c hc => ?_
        rw [place_cons, if_neg (name_ne_of_mem_arranged hc)]
        simp
      rw [hnamed, List.nil_append, hrest, ih, List.filter_filter]
      refine List.filter_congr fun c _ => ?_
      rw [place_cons]
      by_cases hn : c.name = n <;> simp [hn]

/-- Sorting by places puts columns as they are arranged. -/
theorem inOrder_eq_arranged (order : List String) (cs : List Column) : inOrder order cs = arranged order cs := by
  have htrans (a b c : Column) (hab : decide (place order a ≤ place order b) = true)
      (hbc : decide (place order b ≤ place order c) = true) : decide (place order a ≤ place order c) = true := by
    rw [decide_eq_true_eq] at hab hbc ⊢
    exact Nat.le_trans hab hbc
  have htotal (a b : Column) :
      (decide (place order a ≤ place order b) || decide (place order b ≤ place order a)) = true := by
    rw [Bool.or_eq_true, decide_eq_true_eq, decide_eq_true_eq]
    exact Nat.le_total ..
  have hsorted := List.pairwise_mergeSort htrans htotal cs
  -- columns with one place ascend as they are, so sorting leaves them in their order
  have hstable (k : Nat) : cs.filter (place order · = k) = (inOrder order cs).filter (place order · = k) := by
    have hlevel : (cs.filter (place order · = k)).Pairwise fun a b =>
        decide (place order a ≤ place order b) = true := by
      refine List.pairwise_of_forall_mem_list fun a ha b hb => ?_
      have ha := (List.mem_filter.1 ha).2
      have hb := (List.mem_filter.1 hb).2
      rw [decide_eq_true_eq] at ha hb ⊢
      omega
    have hsub := (List.sublist_mergeSort htrans htotal hlevel List.filter_sublist).filter (place order · = k)
    simp only [List.filter_filter, Bool.and_self] at hsub
    exact hsub.eq_of_length ((inOrder_perm order cs).filter _).length_eq.symm
  refine eq_of_ascending (hsorted.imp fun h => of_decide_eq_true h) (arranged_ascends order cs) fun k => ?_
  rw [filter_arranged]
  exact (hstable k).symm

end Arranged

end Tabulate.Store
