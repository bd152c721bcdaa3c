import Tabulate.Proofs.Effects
import Tabulate.Record.Tabulator

/-! Walks that are alike but for what they warn of. Several matches where one is looked for are warned of,
and nothing that is recorded, numbered or refused depends on the warnings there have been. -/
namespace Tabulate

open Effects
open Xml (Location)

def DocumentWarning.isOfSeveral : DocumentWarning → Bool
  | severalMatches .. => true
  | skipped _ => false

def Harvest.hushed (h : Harvest) : Harvest :=
  { h with warnings := h.warnings.filter fun w => !w.isOfSeveral }

namespace Walk
variable {α β : Type}

def outcome : EStateM.Result DocumentError Harvest α → EStateM.Result DocumentError Harvest α
  | .ok a h => .ok a h.hushed
  | .error e h => .error e h.hushed

/-- The programs do the same but for the warnings of several matches, whichever there have been. -/
def Alike (x y : Walk α) : Prop :=
  ∀ h h' : Harvest, h.hushed = h'.hushed → outcome (x h) = outcome (y h')

namespace Alike

theorem pure (a : α) : Alike (Pure.pure a : Walk α) (Pure.pure a) :=
  fun _ _ hh => congrArg (EStateM.Result.ok a) hh

theorem throw (e : DocumentError) : Alike (MonadExcept.throw e : Walk α) (MonadExcept.throw e) :=
  fun _ _ hh => congrArg (EStateM.Result.error e) hh

theorem ofExcept (x : Except DocumentError α) :
    Alike (MonadExcept.ofExcept x : Walk α) (MonadExcept.ofExcept x) := by
  cases x with
  | ok a => exact pure a
  | error e => exact throw e

theorem trans {x y z : Walk α} (hxy : x.Alike y) (hyz : y.Alike z) : x.Alike z :=
  fun h h' hh => (hxy h h' hh).trans (hyz h' h' rfl)

theorem symm {x y : Walk α} (hxy : x.Alike y) : y.Alike x :=
  fun h h' hh => (hxy h' h hh.symm).symm

theorem bind {x y : Walk α} {f g : α → Walk β} (hxy : x.Alike y) (hfg : ∀ a, (f a).Alike (g a)) :
    Alike (x >>= f) (y >>= g) := by
  intro h h' hh
  have hout := hxy h h' hh
  show outcome (EStateM.bind x f h) = outcome (EStateM.bind y g h')
  rw [EStateM.bind, EStateM.bind]
  cases hx : x h with
  | ok a h₁ =>
    cases hy : y h' with
    | ok b h₂ =>
      rw [hx, hy] at hout
      injection hout with hab hh₁
      subst hab
      exact hfg a h₁ h₂ hh₁
    | error e h₂ =>
      rw [hx, hy] at hout
      cases hout
  | error e h₁ =>
    cases hy : y h' with
    | ok b h₂ =>
      rw [hx, hy] at hout
      cases hout
    | error e' h₂ =>
      rw [hx, hy] at hout
      injection hout with he hh₁
      subst he
      exact congrArg (EStateM.Result.error e) hh₁

theorem discard {x y : Walk α} (hxy : x.Alike y) :
    Alike (Functor.discard x : Walk PUnit) (Functor.discard y) := by
  rw [discard_eq_bind, discard_eq_bind]
  exact bind hxy fun _ => pure _

theorem forM {f g : α → Walk PUnit} (hfg : ∀ a, (f a).Alike (g a)) (xs : List α) :
    Alike (xs.forM f) (xs.forM g) := by
  induction xs with
  | nil => exact pure _
  | cons x xs ih => exact bind (hfg x) fun _ => ih

theorem foldlM {f g : β → α → Walk β} (hfg : ∀ b a, (f b a).Alike (g b a)) (xs : List α) (b : β) :
    Alike (xs.foldlM f b) (xs.foldlM g b) := by
  induction xs generalizing b with
  | nil => exact pure _
  | cons x xs ih => exact bind (hfg b x) ih

theorem warn (path : String) (texts : List String) :
    Alike (Harvest.warn (.severalMatches path texts)) (Pure.pure ()) := by
  intro h h' hh
  have hwarn : Harvest.hushed { h with warnings := h.warnings ++ [.severalMatches path texts] } = h.hushed := by
    simp [Harvest.hushed, DocumentWarning.isOfSeveral]
  exact congrArg (EStateM.Result.ok ()) (hwarn.trans hh)

theorem push (table : String) (r : Record) : Alike (Harvest.push table r) (Harvest.push table r) := by
  intro h h' hh
  exact congrArg (fun k : Harvest => EStateM.Result.ok () { k with tables := k.tables.append table [r] }) hh

theorem number (entity parentKey : String) :
    Alike (Harvest.number entity parentKey) (Harvest.number entity parentKey) := by
  intro h h' hh
  exact congrArg (fun k : Harvest => EStateM.Result.ok (k.counters.next entity parentKey).1
    { k with counters := (k.counters.next entity parentKey).2 }) hh

end Alike

end Walk

open Walk (Alike)

section Walks
variable (s : Source)

theorem recordKey_alike (e : Entity) (parent : Option Parent) (l : Location) :
    Alike (s.recordKey e parent l) (s.recordKey e parent l) := by
  refine .bind (.ofExcept _) fun explicit => ?_
  cases explicit.filter fun key => !key.isEmpty with
  | some key => exact .pure key
  | none => exact .bind (.number _ _) fun n => .pure _

/-- Nodes differ in what they tolerate, and only warnings tell that. -/
theorem matchesOf_alike (path : String) (n n' : SchemaNode) (l : Location) :
    Alike (s.matchesOf path n l) (s.matchesOf path n' l) := by
  let found : Walk (List Location) := MonadExcept.ofExcept
    ((s.document.resolve s.namespaces path l).mapError fun e => .document (.invalidNode path e.message) {})
  have hfound (k : SchemaNode) : Alike (s.matchesOf path k l) found := by
    simp only [Source.matchesOf, found]
    cases s.document.resolve s.namespaces path l with
    | error e => exact .throw _
    | ok ls =>
      dsimp only
      split
      · exact .bind (.warn _ _) fun _ => .pure ls
      · exact .pure ls
  exact (hfound n).trans (hfound n').symm

mutual

/-- What warnings there have been makes no difference to a walk. -/
theorem walk_alike (path : String) (parent : Option Parent) :
    (n : SchemaNode) → (ls : List Location) → (r : Record) →
      Alike (n.walk s path parent ls r) (n.walk s path parent ls r)
  | .column _, _, _ => .pure _
  | .field .., _, _ => .pure _
  | .entity e fields, ls, r => by
    refine .bind (.forM (fun l => ?_) ls) fun _ => .pure r
    refine .bind (recordKey_alike s e parent l) fun key => ?_
    exact .bind (walkFields_alike _ l fields _) fun filled => .push _ _
  | .alternatives nodes, ls, r => .foldlM (fun r l => walkEach_alike path parent l nodes r) ls r
  | .invalid _, ls, r => by
    rw [SchemaNode.walk]
    split
    · exact .pure r
    · exact .throw _

theorem walkEach_alike (path : String) (parent : Option Parent) (l : Location) :
    (ns : List SchemaNode) → (r : Record) →
      Alike (walkEach s path parent l ns r) (walkEach s path parent l ns r)
  | [], r => .pure r
  | n :: ns, r => .bind (walk_alike path parent n [l] r) fun r₁ => walkEach_alike path parent l ns r₁

theorem walkFields_alike (parent : Parent) (l : Location) :
    (fs : List (String × SchemaNode)) → (r : Record) →
      Alike (walkFields s parent l fs r) (walkFields s parent l fs r)
  | [], r => .pure r
  | (path, n) :: fs, r => by
    refine .bind (matchesOf_alike s path n n l) fun found => ?_
    exact .bind (walk_alike path parent n found r) fun r₁ => walkFields_alike parent l fs r₁

end

theorem walkPath_alike {path : String} {n n' : SchemaNode} (l : Location)
    (hn : ∀ ls r, Alike (n.walk s path none ls r) (n'.walk s path none ls r)) :
    Alike (s.walkPath l path n) (s.walkPath l path n') :=
  .bind (matchesOf_alike s path n n' l) fun found => .discard (hn found .empty)

end Walks

end Tabulate
