import Tabulate.Text.Dictionary

/-! Looking up what was put into a dictionary. A dictionary is known by what it holds under each
key, so that equations between dictionaries reduce to equations between look-ups. -/
namespace Tabulate.Dictionary
variable {α : Type}

theorem lookup_cons (e : String × α) (es : List (String × α)) (k : String) :
    (e :: es).lookup k = if k = e.1 then some e.2 else es.lookup k := by
  by_cases h : k = e.1
  · rw [List.lookup_cons, if_pos h, beq_iff_eq.2 h]
  · rw [List.lookup_cons, if_neg h, beq_false_of_ne h]

theorem lookup_eq_none {es : List (String × α)} {k : String} (h : k ∉ es.map (·.1)) : es.lookup k = none :=
  List.lookup_eq_none_iff.2 fun e he => bne_iff_ne.2 fun hk => h (List.mem_map.2 ⟨e, he, hk.symm⟩)

theorem lookup_place (key : String) (a : α) (es : List (String × α)) (k : String) :
    (place key a es).lookup k = if k = key then some a else es.lookup k := by
  induction es with
  | nil => simp only [place, lookup_cons, List.lookup_nil]
  | cons e es ih =>
    rw [place]
    split
    · simp only [lookup_cons]
    · split
      · next heq =>
        simp only [lookup_cons, heq]
        split <;> rfl
      · next hne =>
        simp only [lookup_cons, ih]
        by_cases he : k = e.1
        · have hk : k ≠ key := fun h => hne (h ▸ he)
          simp only [if_pos he, if_neg hk]
        · simp only [if_neg he]

@[simp] theorem get?_empty (k : String) : (empty : Dictionary α).get? k = none := rfl

@[simp] theorem get?_insert (d : Dictionary α) (key : String) (a : α) (k : String) :
    (d.insert key a).get? k = if k = key then some a else d.get? k :=
  lookup_place key a d.entries k

theorem mem_entries_iff (d : Dictionary α) (k : String) (a : α) :
    (k, a) ∈ d.entries ↔ d.get? k = some a := by
  obtain ⟨es, hs⟩ := d
  simp only [get?]
  induction es with
  | nil => simp
  | cons e es ih =>
    obtain ⟨hlt, hs⟩ := List.pairwise_cons.1 hs
    by_cases h : k = e.1
    · have hne : (k, a) ∉ es := fun hm => String.lt_irrefl _ (h ▸ hlt _ hm : e.1 < e.1)
      subst h
      simp [lookup_cons, hne, Prod.ext_iff, eq_comm]
    · have hne : (k, a) ≠ e := fun he => h (congrArg Prod.fst he)
      simp [lookup_cons, h, hne, ih hs]

theorem mem_keys_iff (d : Dictionary α) (k : String) : k ∈ d.keys ↔ ∃ a, d.get? k = some a := by
  simp only [keys, List.mem_map, Prod.exists, exists_and_right, exists_eq_right, mem_entries_iff]

@[simp] theorem mem_keys_empty (k : String) : k ∉ (empty : Dictionary α).keys := by
  simp [mem_keys_iff]

@[simp] theorem mem_keys_insert (d : Dictionary α) (key : String) (a : α) (k : String) :
    k ∈ (d.insert key a).keys ↔ k = key ∨ k ∈ d.keys := by
  simp only [mem_keys_iff, get?_insert]
  by_cases h : k = key <;> simp [h]

theorem nodup_keys (d : Dictionary α) : d.keys.Nodup := by
  rw [keys, List.Nodup, List.pairwise_map]
  exact d.sorted.imp fun {a b} (h : a.1 < b.1) (he : a.1 = b.1) => String.lt_irrefl b.1 (he ▸ h)

theorem get?_foldl_insert {es : List (String × α)} (hn : (es.map (·.1)).Nodup) (d : Dictionary α)
    (k : String) : (es.foldl (fun d e => d.insert e.1 e.2) d).get? k = (es.lookup k).or (d.get? k) := by
  induction es generalizing d with
  | nil => rfl
  | cons e es ih =>
    obtain ⟨he, hn⟩ := List.nodup_cons.1 hn
    rw [List.foldl_cons, ih hn, get?_insert, lookup_cons]
    by_cases hk : k = e.1
    · simp [hk, lookup_eq_none he]
    · simp [hk]

/-- A list of different keys is looked up in as it stands. -/
theorem get?_ofList {es : List (String × α)} (hn : (es.map (·.1)).Nodup) (k : String) :
    (ofList es).get? k = es.lookup k := by
  rw [ofList, get?_foldl_insert hn, get?_empty, Option.or_none]

theorem get?_ofList_of_mem {es : List (String × α)} (hn : (es.map (·.1)).Nodup) {k : String} {a : α}
    (h : (k, a) ∈ es) : (ofList es).get? k = some a := by
  obtain ⟨before, behind, rfl⟩ := List.append_of_mem h
  rw [get?_ofList hn, List.lookup_eq_some_iff]
  refine ⟨before, behind, rfl, fun e he => bne_iff_ne.2 fun hk => ?_⟩
  rw [List.map_append, List.nodup_append] at hn
  exact hn.2.2 e.1 (List.mem_map_of_mem he) k (by simp) hk.symm

/-- Sorted lists with the same members are the same list. -/
theorem entries_ext {es fs : List (String × α)} (he : es.Pairwise fun a b => a.1 < b.1)
    (hf : fs.Pairwise fun a b => a.1 < b.1) (h : ∀ e, e ∈ es ↔ e ∈ fs) : es = fs := by
  induction es generalizing fs with
  | nil => exact (List.eq_nil_iff_forall_not_mem.2 fun e hm => by simpa using (h e).2 hm).symm
  | cons e es ih =>
    cases fs with
    | nil => exact absurd ((h e).1 (by simp)) (by simp)
    | cons f fs =>
      obtain ⟨hle, he'⟩ := List.pairwise_cons.1 he
      obtain ⟨hlf, hf'⟩ := List.pairwise_cons.1 hf
      have hef : e = f := by
        rcases List.mem_cons.1 ((h e).1 (by simp)) with heq | hm
        · exact heq
        · rcases List.mem_cons.1 ((h f).2 (by simp)) with heq | hm'
          · exact heq.symm
          · exact absurd (String.lt_trans (hlf e hm) (hle f hm')) (String.lt_irrefl _)
      subst hef
      refine congrArg (e :: ·) (ih he' hf' fun g => ⟨fun hg => ?_, fun hg => ?_⟩)
      · rcases List.mem_cons.1 ((h g).1 (by simp [hg])) with rfl | hm
        · exact absurd (hle g hg) (String.lt_irrefl _)
        · exact hm
      · rcases List.mem_cons.1 ((h g).2 (by simp [hg])) with rfl | hm
        · exact absurd (hlf g hg) (String.lt_irrefl _)
        · exact hm

theorem ext_get? {d e : Dictionary α} (h : ∀ k, d.get? k = e.get? k) : d = e := by
  have hm (x : String × α) : x ∈ d.entries ↔ x ∈ e.entries := by
    rw [mem_entries_iff d x.1 x.2, mem_entries_iff e x.1 x.2, h]
  obtain ⟨es, hs⟩ := d
  obtain ⟨fs, hf⟩ := e
  obtain rfl : es = fs := entries_ext hs hf hm
  rfl

@[simp] theorem insert_insert (d : Dictionary α) (key : String) (a b : α) :
    (d.insert key a).insert key b = d.insert key b := by
  refine ext_get? fun k => ?_
  simp only [get?_insert]
  split <;> rfl

end Tabulate.Dictionary
