/-! Values under texts, in the order of the texts. The order is part of the type, so that two
dictionaries with the same entries are equal. -/
namespace Tabulate

structure Dictionary (α : Type) where
  entries : List (String × α)
  sorted : entries.Pairwise fun a b => a.1 < b.1
deriving DecidableEq

namespace Dictionary

variable {α β : Type}

def empty : Dictionary α := ⟨[], .nil⟩

instance : Inhabited (Dictionary α) := ⟨empty⟩

def keys (d : Dictionary α) : List String := d.entries.map (·.1)

def values (d : Dictionary α) : List α := d.entries.map (·.2)

def get? (d : Dictionary α) (key : String) : Option α := d.entries.lookup key

def place (key : String) (a : α) : List (String × α) → List (String × α)
  | [] => [(key, a)]
  | e :: es =>
    if key < e.1 then (key, a) :: e :: es
    else if key = e.1 then (key, a) :: es
    else e :: place key a es

theorem mem_place {key : String} {a : α} {es : List (String × α)} {e : String × α}
    (h : e ∈ place key a es) : e = (key, a) ∨ e ∈ es := by
  induction es with
  | nil => simpa [place] using h
  | cons b es ih =>
    rw [place] at h
    split at h
    · simpa using h
    · split at h
      · simp only [List.mem_cons] at h ⊢
        exact h.imp_right .inr
      · simp only [List.mem_cons] at h ⊢
        rcases h with h | h
        · exact .inr (.inl h)
        · exact (ih h).imp_right .inr

theorem sorted_place {key : String} {a : α} {es : List (String × α)}
    (h : es.Pairwise fun a b => a.1 < b.1) : (place key a es).Pairwise fun a b => a.1 < b.1 := by
  induction es with
  | nil => simp [place]
  | cons b es ih =>
    rw [List.pairwise_cons] at h
    rw [place]
    split
    · next hlt =>
      refine List.pairwise_cons.2 ⟨fun c hc => ?_, List.pairwise_cons.2 h⟩
      rcases List.mem_cons.1 hc with rfl | hc
      · exact hlt
      · exact String.lt_trans hlt (h.1 c hc)
    · next hlt =>
      split
      · next heq => exact List.pairwise_cons.2 ⟨fun c hc => heq ▸ h.1 c hc, h.2⟩
      · next hne =>
        refine List.pairwise_cons.2 ⟨fun c hc => ?_, ih h.2⟩
        rcases mem_place hc with rfl | hc
        · rcases Decidable.em (b.1 < key) with hb | hb
          · exact hb
          · exact absurd (String.le_antisymm hb hlt) hne
        · exact h.1 c hc

def insert (d : Dictionary α) (key : String) (a : α) : Dictionary α :=
  ⟨place key a d.entries, sorted_place d.sorted⟩

def ofList (es : List (String × α)) : Dictionary α := es.foldl (fun d e => d.insert e.1 e.2) empty

end Dictionary

end Tabulate
