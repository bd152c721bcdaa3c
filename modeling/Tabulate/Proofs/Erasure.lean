import Tabulate.Proofs.Effects
import Tabulate.Record.Tabulator

/-! Schemas without their invalid nodes. A walk does the same along a schema and along what is left of
it, up to the first match of an invalid node. There it breaks off. -/
namespace Tabulate

open Effects
open Xml (Location)

namespace SchemaNode

mutual

def erased : SchemaNode → SchemaNode
  | .entity e fields => .entity e (erasedFields fields)
  | .alternatives nodes => .alternatives (erasedNodes nodes)
  | .column name => .column name
  | .field name rule => .field name rule
  | .invalid description => .invalid description
termination_by structural n => n

def erasedNodes : List SchemaNode → List SchemaNode
  | [] => []
  | n :: ns => if n.isInvalid then erasedNodes ns else n.erased :: erasedNodes ns
termination_by structural ns => ns

def erasedFields : List (String × SchemaNode) → List (String × SchemaNode)
  | [] => []
  | (path, n) :: fs => if n.isInvalid then erasedFields fs else (path, n.erased) :: erasedFields fs
termination_by structural fs => fs

end

theorem toleratesMultiple_erased (n : SchemaNode) :
    n.erased.toleratesMultiple = n.toleratesMultiple := by
  cases n <;> rfl

theorem eq_invalid {n : SchemaNode} (h : n.isInvalid = true) : ∃ description, n = .invalid description := by
  cases n with
  | invalid description => exact ⟨description, rfl⟩
  | column | field | entity | alternatives => cases h

mutual

/-- Nothing invalid is left. -/
theorem firstInvalid?_erased (path : String) :
    (n : SchemaNode) → n.isInvalid = false → n.erased.firstInvalid? path = none
  | .column _, _ => rfl
  | .field .., _ => rfl
  | .entity _ fields, _ => firstInvalidField?_erased fields
  | .alternatives nodes, _ => firstInvalidOf?_erased path nodes
  | .invalid _, h => nomatch h

theorem firstInvalidOf?_erased (path : String) :
    (ns : List SchemaNode) → firstInvalidOf? path (erasedNodes ns) = none
  | [] => rfl
  | n :: ns => by
    rw [erasedNodes]
    split
    · exact firstInvalidOf?_erased path ns
    · next h =>
      rw [firstInvalidOf?, firstInvalid?_erased path n (eq_false_of_ne_true h),
        firstInvalidOf?_erased path ns]
      rfl

theorem firstInvalidField?_erased :
    (fs : List (String × SchemaNode)) → firstInvalidField? (erasedFields fs) = none
  | [] => rfl
  | (path, n) :: fs => by
    rw [erasedFields]
    split
    · exact firstInvalidField?_erased fs
    · next h =>
      rw [firstInvalidField?, firstInvalid?_erased path n (eq_false_of_ne_true h),
        firstInvalidField?_erased fs]
      rfl

end

theorem isInvalid_eq_false {path : String} {n : SchemaNode} (h : n.firstInvalid? path = none) :
    n.isInvalid = false := by
  cases n with
  | invalid description => cases h
  | column | field | entity | alternatives => rfl

mutual

/-- Nothing else is erased. -/
theorem erased_of_firstInvalid? (path : String) :
    (n : SchemaNode) → n.firstInvalid? path = none → n.erased = n
  | .column _, _ => rfl
  | .field .., _ => rfl
  | .entity e fields, h => congrArg (entity e) (erasedFields_of_firstInvalidField? fields h)
  | .alternatives nodes, h => congrArg alternatives (erasedNodes_of_firstInvalidOf? path nodes h)
  | .invalid _, h => nomatch h

theorem erasedNodes_of_firstInvalidOf? (path : String) :
    (ns : List SchemaNode) → firstInvalidOf? path ns = none → erasedNodes ns = ns
  | [], _ => rfl
  | n :: ns, h => by
    have ⟨hn, hns⟩ := Option.or_eq_none_iff.1 h
    rw [erasedNodes, isInvalid_eq_false hn, erased_of_firstInvalid? path n hn,
      erasedNodes_of_firstInvalidOf? path ns hns]
    rfl

theorem erasedFields_of_firstInvalidField? :
    (fs : List (String × SchemaNode)) → firstInvalidField? fs = none → erasedFields fs = fs
  | [], _ => rfl
  | (path, n) :: fs, h => by
    have ⟨hn, hfs⟩ := Option.or_eq_none_iff.1 h
    rw [erasedFields, isInvalid_eq_false hn, erased_of_firstInvalid? path n hn,
      erasedFields_of_firstInvalidField? fs hfs]
    rfl

end

end SchemaNode

namespace Schema

def erased (schema : Schema) : Schema :=
  { schema with paths := SchemaNode.erasedFields schema.paths }

/-- What is left of a schema has layouts. -/
theorem layouts_erased (schema : Schema) :
    schema.erased.layouts =
      .ok (schema.erased.tables.foldl (fun ls t => TableLayout.addTable ls t.1 t.2) []) := by
  have hvalid : SchemaNode.firstInvalidField? schema.erased.paths = none :=
    SchemaNode.firstInvalidField?_erased schema.paths
  rw [layouts, hvalid]

/-- A schema that has layouts is left as it is. -/
theorem erased_of_layouts {schema : Schema} {ls : List TableLayout} (h : schema.layouts = .ok ls) :
    schema.erased = schema := by
  rw [layouts] at h
  cases hfirst : SchemaNode.firstInvalidField? schema.paths with
  | none => rw [erased, SchemaNode.erasedFields_of_firstInvalidField? schema.paths hfirst]
  | some p =>
    rw [hfirst] at h
    cases h

end Schema

namespace Walk
variable {α β : Type}

/-- A program breaks off at an invalid node. -/
def Blames (x : Walk α) (h : Harvest) : Prop :=
  ∃ path description h', x h = .error (.document (.invalidNode path description) {}) h'

/-- Where `x` does not break off at an invalid node, `y` does the same. -/
def Spares (x y : Walk α) : Prop := ∀ h, x h = y h ∨ x.Blames h

theorem Blames.bind {x : Walk α} {f : α → Walk β} {h : Harvest} (hx : x.Blames h) :
    Blames (x >>= f) h := by
  obtain ⟨path, description, h', hx⟩ := hx
  exact ⟨path, description, h', bind_eq_error.2 (.inl hx)⟩

theorem Blames.of_bind {x : Walk α} {f : α → Walk β} {h h₁ : Harvest} {a : α} (hx : x h = .ok a h₁)
    (hf : (f a).Blames h₁) : Blames (x >>= f) h := by
  obtain ⟨path, description, h', hf⟩ := hf
  exact ⟨path, description, h', bind_eq_error.2 (.inr ⟨a, h₁, hx, hf⟩)⟩

theorem Blames.throw (path description : String) (h : Harvest) :
    Blames (MonadExcept.throw (.document (.invalidNode path description) {}) : Walk α) h :=
  ⟨path, description, h, rfl⟩

namespace Spares

theorem refl (x : Walk α) : x.Spares x := fun _ => .inl rfl

theorem bind {x y : Walk α} {f g : α → Walk β} (hx : x.Spares y) (hf : ∀ a, (f a).Spares (g a)) :
    Spares (x >>= f) (y >>= g) := by
  intro h
  cases hx h with
  | inr hblames => exact .inr hblames.bind
  | inl hxy =>
    cases hr : x h with
    | error e h₁ =>
      left
      exact (bind_eq_error.2 (.inl hr)).trans (bind_eq_error.2 (.inl (hxy.symm.trans hr))).symm
    | ok a h₁ =>
      have hbind (f : α → Walk β) {z : Walk α} (hz : z h = .ok a h₁) : (z >>= f) h = f a h₁ := by
        show EStateM.bind z f h = _
        rw [EStateM.bind, hz]
      rw [hbind f hr, hbind g (hxy.symm.trans hr)]
      exact (hf a h₁).imp_right (Blames.of_bind hr)

theorem discard {x y : Walk α} (hxy : x.Spares y) :
    Spares (Functor.discard x : Walk PUnit) (Functor.discard y) := by
  rw [discard_eq_bind, discard_eq_bind]
  exact bind hxy fun _ => refl _

theorem forM {f g : α → Walk PUnit} (hf : ∀ a, (f a).Spares (g a)) (xs : List α) :
    Spares (xs.forM f) (xs.forM g) := by
  induction xs with
  | nil => exact refl _
  | cons x xs ih => exact bind (hf x) fun _ => ih

theorem foldlM {f g : β → α → Walk β} (hf : ∀ b a, (f b a).Spares (g b a)) (xs : List α) (b : β) :
    Spares (xs.foldlM f b) (xs.foldlM g b) := by
  induction xs generalizing b with
  | nil => exact refl _
  | cons x xs ih => exact bind (hf b x) ih

end Spares

end Walk

open Walk (Spares Blames)

section Walks
variable (s : Source)

theorem matchesOf_erased (path : String) (n : SchemaNode) (l : Location) :
    s.matchesOf path n.erased l = s.matchesOf path n l := by
  rw [Source.matchesOf, Source.matchesOf, n.toleratesMultiple_erased]

/-- An invalid node that is not matched leaves the record around it and the harvest alone. -/
theorem invalid_spares (path description : String) (parent : Option Parent) (l : Location) (r : Record) :
    Spares (s.matchesOf path (.invalid description) l >>= fun found =>
      (SchemaNode.invalid description).walk s path parent found r) (pure r) := by
  intro h
  rw [Source.matchesOf]
  cases s.document.resolve s.namespaces path l with
  | error e => exact .inr (Blames.throw path e.message h).bind
  | ok ls =>
    cases ls with
    | nil => exact .inl rfl
    | cons l₁ ls =>
      right
      -- The warning of several matches comes before the error, so the harvest has changed by then.
      dsimp only
      split
      · exact .of_bind rfl (Blames.throw path description _)
      · exact .of_bind rfl (Blames.throw path description h)

mutual

theorem walk_spares (path : String) (parent : Option Parent) :
    (n : SchemaNode) → (ls : List Location) → (r : Record) →
      Spares (n.walk s path parent ls r) (n.erased.walk s path parent ls r)
  | .column _, _, _ => .refl _
  | .field .., _, _ => .refl _
  | .entity e fields, ls, r => by
    refine .bind (.forM (fun l => ?_) ls) fun _ => .refl _
    refine .bind (.refl _) fun key => ?_
    exact .bind (walkFields_spares _ l fields _) fun filled => .refl _
  | .alternatives nodes, ls, r => .foldlM (fun r l => walkEach_spares path parent l nodes r) ls r
  | .invalid _, _, _ => .refl _

theorem walkEach_spares (path : String) (parent : Option Parent) (l : Location) :
    (ns : List SchemaNode) → (r : Record) →
      Spares (walkEach s path parent l ns r) (walkEach s path parent l (SchemaNode.erasedNodes ns) r)
  | [], r => .refl _
  | n :: ns, r => by
    rw [SchemaNode.erasedNodes]
    split
    · next hn =>
      obtain ⟨description, rfl⟩ := SchemaNode.eq_invalid hn
      exact fun h => .inr (Blames.throw path description h).bind
    · exact .bind (walk_spares path parent n [l] r) fun r₁ => walkEach_spares path parent l ns r₁

theorem walkFields_spares (parent : Parent) (l : Location) :
    (fs : List (String × SchemaNode)) → (r : Record) →
      Spares (walkFields s parent l fs r) (walkFields s parent l (SchemaNode.erasedFields fs) r)
  | [], r => .refl _
  | (path, n) :: fs, r => by
    rw [SchemaNode.erasedFields]
    split
    · next hn =>
      obtain ⟨description, rfl⟩ := SchemaNode.eq_invalid hn
      rw [walkFields, ← bind_assoc]
      exact .bind (invalid_spares s path description parent l r) fun r₁ => walkFields_spares parent l fs r₁
    · rw [walkFields, walkFields, matchesOf_erased]
      refine .bind (.refl _) fun found => ?_
      exact .bind (walk_spares path parent n found r) fun r₁ => walkFields_spares parent l fs r₁

end

end Walks

namespace Tabulator

end Tabulator

end Tabulate
