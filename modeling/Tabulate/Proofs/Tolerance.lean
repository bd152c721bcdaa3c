import Tabulate.Proofs.Effects
import Tabulate.Record.Tabulator

/-! Errors that a run may go on after. Only a doctype to check without a root element is not one of
them, so where a schema has a root element every document that fails can be skipped. -/
namespace Tabulate

open Effects
open Xml (Document Location Namespaces)

/-- A program of a walk that breaks off with nothing but errors of the document. -/
def Walk.Tolerable {α : Type} (x : Walk α) : Prop :=
  ∀ h e h', x h = .error e h' → e.isTolerable = true

namespace Walk.Tolerable
variable {α β : Type}

theorem pure (a : α) : Walk.Tolerable (Pure.pure a : Walk α) := fun _ _ _ h => nomatch h

theorem bind {x : Walk α} {f : α → Walk β} (hx : x.Tolerable) (hf : ∀ a, (f a).Tolerable) :
    Walk.Tolerable (x >>= f) := by
  intro h e h' he
  rcases bind_eq_error.1 he with he | ⟨a, h₁, -, he⟩
  · exact hx h e h' he
  · exact hf a h₁ e h' he

theorem throw (fault : DocumentFault) (c : DocumentContext) :
    Walk.Tolerable (MonadExcept.throw (DocumentError.document fault c) : Walk α) := by
  intro h e h' he
  cases he
  rfl

theorem modify (f : Harvest → Harvest) : Walk.Tolerable (modify f : Walk Unit) :=
  fun _ _ _ h => nomatch h

theorem ofExcept {x : Except DocumentError α} (hx : ∀ e, x = .error e → e.isTolerable = true) :
    Walk.Tolerable (MonadExcept.ofExcept x : Walk α) := by
  intro h e h' he
  cases x with
  | ok a => cases he
  | error e' =>
    cases he
    exact hx e rfl

theorem discard {x : Walk α} (hx : x.Tolerable) : Walk.Tolerable (discard x : Walk PUnit) := by
  intro h e h' he
  have hmap : EStateM.map (fun _ => PUnit.unit) x h = .error e h' := he
  rw [EStateM.map] at hmap
  cases hr : x h with
  | ok a h₁ =>
    rw [hr] at hmap
    cases hmap
  | error e₁ h₁ =>
    rw [hr] at hmap
    cases hmap
    exact hx h e h' hr

theorem forM {f : α → Walk PUnit} (hf : ∀ a, (f a).Tolerable) (xs : List α) :
    Walk.Tolerable (xs.forM f) := by
  induction xs with
  | nil => exact pure _
  | cons x xs ih => exact bind (hf x) fun _ => ih

theorem foldlM {f : β → α → Walk β} (hf : ∀ b a, (f b a).Tolerable) (xs : List α) (b : β) :
    Walk.Tolerable (xs.foldlM f b) := by
  induction xs generalizing b with
  | nil => exact pure _
  | cons x xs ih => exact bind (hf b x) ih

end Walk.Tolerable

open Walk (Tolerable)

section Walks
variable (s : Source)

theorem keyPart_tolerable (d : Document) (m : Namespaces) (l : Location) (path : String)
    (e : DocumentError) (he : d.keyPart m l path = .error e) : e.isTolerable = true := by
  rw [Document.keyPart] at he
  cases hf : d.resolve m path l with
  | error _ =>
    rw [hf] at he
    cases he
    rfl
  | ok ls =>
    rw [hf] at he
    match ls with
    | [] | _ :: _ :: _ =>
      cases he
      rfl
    | [found] => cases he

theorem explicitKey_tolerable (entity : Entity) (l : Location) (e : DocumentError)
    (he : s.explicitKey entity l = .error e) : e.isTolerable = true := by
  rw [Source.explicitKey] at he
  cases hk : entity.primaryKey with
  | none =>
    rw [hk] at he
    cases he
  | some key =>
    simp only [hk, Document.primaryKey] at he
    cases hparts : key.components.mapM (s.document.keyPart s.namespaces l) with
    | ok parts =>
      rw [hparts] at he
      cases he
    | error e' =>
      rw [hparts] at he
      cases he
      obtain ⟨-, path, -, -, -, hp⟩ := mapM_first_error.1 hparts
      exact keyPart_tolerable _ _ _ _ e hp

theorem matchesOf_tolerable (path : String) (n : SchemaNode) (l : Location) :
    (s.matchesOf path n l).Tolerable := by
  rw [Source.matchesOf]
  cases s.document.resolve s.namespaces path l with
  | error e => exact .throw _ _
  | ok ls =>
    dsimp only
    split
    · exact .bind (.modify _) fun _ => .pure ls
    · exact .pure ls

theorem recordKey_tolerable (e : Entity) (parent : Option Parent) (l : Location) :
    (s.recordKey e parent l).Tolerable := by
  refine .bind (.ofExcept (explicitKey_tolerable s e l)) fun explicit => ?_
  cases explicit.filter fun key => !key.isEmpty with
  | some key => exact .pure key
  | none => exact .bind (fun _ _ _ h => nomatch h) fun _ => .pure _

mutual

theorem walk_tolerable (path : String) (parent : Option Parent) :
    (n : SchemaNode) → (ls : List Location) → (r : Record) → (n.walk s path parent ls r).Tolerable
  | .column _, _, _ => .pure _
  | .field .., _, _ => .pure _
  | .entity e fields, ls, r => by
    refine .bind (.forM (fun l => ?_) ls) fun _ => .pure r
    refine .bind (recordKey_tolerable s e parent l) fun key => ?_
    exact .bind (walkFields_tolerable _ l fields _) fun filled => .modify _
  | .alternatives nodes, ls, r => .foldlM (fun r l => walkEach_tolerable path parent l nodes r) ls r
  | .invalid description, ls, r => by
    rw [SchemaNode.walk]
    split
    · exact .pure r
    · exact .throw _ _

theorem walkEach_tolerable (path : String) (parent : Option Parent) (l : Location) :
    (ns : List SchemaNode) → (r : Record) → (walkEach s path parent l ns r).Tolerable
  | [], r => .pure r
  | n :: ns, r =>
    .bind (walk_tolerable path parent n [l] r) fun r₁ => walkEach_tolerable path parent l ns r₁

theorem walkFields_tolerable (parent : Parent) (l : Location) :
    (fs : List (String × SchemaNode)) → (r : Record) → (walkFields s parent l fs r).Tolerable
  | [], r => .pure r
  | (path, n) :: fs, r =>
    .bind (matchesOf_tolerable s path n l) fun found =>
      .bind (walk_tolerable path (some parent) n found r) fun r₁ =>
        walkFields_tolerable parent l fs r₁

end

end Walks

namespace Tabulator
variable {t : Tabulator} {fs : FileSystem} {text : String}

theorem malformed_tolerable {α : Type} {x : Except Xml.Error α} {e : DocumentError}
    (he : x.mapError malformed = .error e) : e.isTolerable = true := by
  cases x with
  | ok a => cases he
  | error _ =>
    cases he
    rfl

theorem read_tolerable {e : DocumentError} {x : Except Xml.Error String} {o : Xml.ParseOptions}
    (he : (x.mapError malformed >>= fun prepared => (Document.parse prepared o).mapError malformed) =
      .error e) : e.isTolerable = true := by
  cases hx : x.mapError malformed with
  | error e' =>
    rw [hx] at he
    cases he
    exact malformed_tolerable hx
  | ok prepared =>
    rw [hx] at he
    exact malformed_tolerable he

theorem parse_tolerable (hroot : t.options.checkDoctype = true → t.schema.rootElement.isSome = true)
    {e : DocumentError} (he : t.parse fs text = .error e) : e.isTolerable = true := by
  rw [parse] at he
  dsimp only at he
  split at he
  · next hcheck =>
    obtain ⟨root, hr⟩ := Option.isSome_iff_exists.1 (hroot hcheck)
    simp only [hr] at he
    cases hd : Xml.checkDoctype text root with
    | ok _ =>
      rw [hd] at he
      exact read_tolerable he
    | error why =>
      rw [hd] at he
      cases why <;> cases he <;> rfl
  · exact read_tolerable he

theorem process_of_error {filename : Option String} (line : Option Nat) {e : DocumentError}
    (h : (t.addDocument fs text filename).result = .error e) (htol : e.isTolerable = true) :
    (t.process fs text filename line).next = (t.addDocument fs text filename).next ∧
      (t.process fs text filename line).result =
        if t.options.continueOnError then .ok () else .error (e.withLocation filename line) := by
  have hloc : (e.withLocation filename line).isTolerable = true := by
    cases e with
    | document fault c => rfl
    | noRootElement => cases htol
  simp only [process, h, hloc, Bool.and_true]
  split <;> exact ⟨rfl, rfl⟩

end Tabulator

end Tabulate
