import Tabulate.Proofs.Numbering

/-! Tables that are taken out between documents. A tabulator goes on from the same names and keys
whether its tables have been taken out or not, so it answers every document in the same way, and the
tables that are taken out make up, one after the other, those it would have come to. -/
namespace Tabulate

open Xml (Document)

namespace Tables

/-- Tables that are merged one after the other. -/
def mergeAll (ts : List Tables) : Tables := ts.foldl merge .empty

theorem foldl_merge (t : Tables) (ts : List Tables) : ts.foldl merge t = t.merge (mergeAll ts) := by
  induction ts generalizing t with
  | nil => rfl
  | cons u ts ih => rw [mergeAll, List.foldl_cons, List.foldl_cons, ih, ih, empty_merge, merge_assoc]

theorem mergeAll_cons (t : Tables) (ts : List Tables) : mergeAll (t :: ts) = t.merge (mergeAll ts) := by
  rw [mergeAll, List.foldl_cons, empty_merge, foldl_merge]

theorem mergeAll_concat (ts : List Tables) (t : Tables) : mergeAll (ts ++ [t]) = (mergeAll ts).merge t := by
  rw [mergeAll, List.foldl_append]
  rfl

theorem recordCount_mergeAll (ts : List Tables) : (mergeAll ts).recordCount = total (ts.map recordCount) := by
  induction ts with
  | nil => rfl
  | cons t ts ih => rw [mergeAll_cons, recordCount_merge, ih, List.map_cons, total]

end Tables

structure Reply where
  result : Except DocumentError Unit
  warnings : List DocumentWarning

namespace Call

def isFeed : Call → Bool
  | .feed .. => true
  | .drain => false

end Call

/-- A tabulator that would have been given records before its own. -/
def Tabulator.preceded (t : Tabulator) (before : Tables) : Tabulator :=
  { t with tables := before.merge t.tables }

namespace TabulatorStep

def reply (step : TabulatorStep) : Reply := ⟨step.result, step.warnings⟩

def preceded (step : TabulatorStep) (before : Tables) : TabulatorStep :=
  { step with next := step.next.preceded before }

end TabulatorStep

namespace Tabulator

def replies (t : Tabulator) : List Call → List Reply
  | [] => []
  | .feed fs f :: cs => (t.feed fs f).reply :: (t.feed fs f).next.replies cs
  | .drain :: cs => t.drain.2.replies cs

def takings (t : Tabulator) : List Call → List Tables
  | [] => []
  | .feed fs f :: cs => (t.feed fs f).next.takings cs
  | .drain :: cs => t.drain.1 :: t.drain.2.takings cs

theorem allDrained_eq (t : Tabulator) (cs : List Call) :
    t.allDrained cs = Tables.mergeAll (t.takings cs) := by
  induction cs generalizing t with
  | nil => rfl
  | cons c cs ih =>
    rw [allDrained, ih]
    cases c with
    | feed fs f => rw [drained, Tables.empty_merge, takings, call]
    | drain => rw [drained, takings, Tables.mergeAll_cons, call]

theorem preceded_empty (t : Tabulator) : t.preceded .empty = t := by
  rw [preceded, Tables.empty_merge]

/-- What a tabulator holds makes no difference to what becomes of a document. -/
theorem addDocument_preceded (t : Tabulator) (before : Tables) (fs : FileSystem) (text : String)
    (filename : Option String) :
    (t.preceded before).addDocument fs text filename =
      (t.addDocument fs text filename).preceded before := by
  have hparse : (t.preceded before).parse fs text = t.parse fs text := rfl
  have hnames (d : Document) : (t.preceded before).namespacesFor d = t.namespacesFor d := rfl
  have hschema : (t.preceded before).schema = t.schema := rfl
  have hcounters : (t.preceded before).counters = t.counters := rfl
  rw [addDocument, addDocument, hparse]
  cases t.parse fs text with
  | error e => rfl
  | ok d =>
    dsimp only
    rw [hnames, hschema, hcounters]
    cases walk ⟨d, t.namespacesFor d, filename⟩ t.schema { counters := t.counters } with
    | error e h => rfl
    | ok u h =>
      simp only [TabulatorStep.preceded, preceded]
      rw [Tables.merge_assoc]

theorem feed_preceded (t : Tabulator) (before : Tables) (fs : FileSystem) (f : Feed) :
    (t.preceded before).feed fs f = (t.feed fs f).preceded before := by
  have hoptions : (t.preceded before).options = t.options := rfl
  rw [feed, feed, process, process, addDocument_preceded, hoptions]
  have hresult (step : TabulatorStep) : (step.preceded before).result = step.result := rfl
  rw [hresult]
  cases (t.addDocument fs f.text f.filename).result with
  | ok _ => rfl
  | error e =>
    dsimp only
    split <;> rfl

theorem drain_preceded (t : Tabulator) (before : Tables) :
    t.drain.2.preceded (before.merge t.drain.1) = t.preceded before := rfl

/-- A tabulator whose tables are taken out goes on like one that keeps them. -/
theorem run_preceded (t : Tabulator) (before : Tables) (cs : List Call) :
    (t.preceded before).replies (cs.filter Call.isFeed) = t.replies cs ∧
      (t.preceded before).callAll (cs.filter Call.isFeed) =
        (t.callAll cs).preceded (before.merge (t.allDrained cs)) := by
  induction cs generalizing t before with
  | nil => exact ⟨rfl, rfl⟩
  | cons c cs ih =>
    cases c with
    | feed fs f =>
      obtain ⟨hreplies, hcalls⟩ := ih (t.feed fs f).next before
      rw [List.filter_cons_of_pos rfl, replies, replies, callAll, callAll, allDrained, drained, call, call,
        feed_preceded, Tables.empty_merge]
      exact ⟨congrArg _ hreplies, hcalls⟩
    | drain =>
      rw [List.filter_cons_of_neg (by decide), replies, callAll, allDrained, drained, ← Tables.merge_assoc,
        ← drain_preceded]
      exact ih t.drain.2 (before.merge t.drain.1)

end Tabulator

/-- Taking tables out between documents changes nothing but where the records are: every document is
answered as if none were taken out, the tables that are taken out and those that are left merge into
those that would be left, with as many records, and names and keys go on alike. -/
theorem draining_transparent (t : Tabulator) (cs : List Call) :
    let fed := cs.filter Call.isFeed
    let pieces := t.takings cs ++ [(t.callAll cs).tables]
    t.replies cs = t.replies fed ∧
      Tables.mergeAll pieces = (t.callAll fed).tables ∧
      total (pieces.map Tables.recordCount) = (t.callAll fed).tables.recordCount ∧
      (t.callAll cs).namespaces = (t.callAll fed).namespaces ∧
      (t.callAll cs).counters = (t.callAll fed).counters := by
  obtain ⟨hreplies, hcalls⟩ := t.run_preceded .empty cs
  rw [Tabulator.preceded_empty] at hreplies hcalls
  rw [Tables.empty_merge] at hcalls
  have hmerged : Tables.mergeAll (t.takings cs ++ [(t.callAll cs).tables]) =
      (t.callAll (cs.filter Call.isFeed)).tables := by
    rw [Tables.mergeAll_concat, ← Tabulator.allDrained_eq, hcalls]
    rfl
  refine ⟨hreplies.symm, hmerged, ?_, ?_, ?_⟩
  · rw [← Tables.recordCount_mergeAll, hmerged]
  · rw [hcalls]
    rfl
  · rw [hcalls]
    rfl

end Tabulate
