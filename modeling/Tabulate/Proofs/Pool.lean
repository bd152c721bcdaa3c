import Tabulate.Proofs.Batches

/-! A pool of workers. Documents are handed out in their order, at most as many at once as there are
workers; the workers finish in any order; the results are taken in the order of the documents, up to
the first error. Whatever the schedule, the answer is that of one document after another. -/
namespace Tabulate

/-- A document that was handed out, with its result once it is finished. -/
structure Task where
  document : RawDocument
  result? : Option (Except DocumentError Batch) := none

structure Pool where
  waiting : List RawDocument
  tasks : List Task := []
  gathered : Batch := {}
  answer? : Option (Except DocumentError Batch) := none

inductive PoolEvent where
  | submit
  | finish (task : Nat)
  | collect

namespace Pool
variable {wanted : Nat} {work : RawDocument → Except DocumentError Batch} {p q : Pool}
  {ev : PoolEvent} {evs : List PoolEvent} {ds : List RawDocument}

def start (ds : List RawDocument) : Pool := { waiting := ds }

def running (p : Pool) : Nat := p.tasks.countP fun t => t.result?.isNone

def step (wanted : Nat) (work : RawDocument → Except DocumentError Batch) (p : Pool) :
    PoolEvent → Option Pool
  | .submit =>
    match p.waiting, p.answer? with
    | d :: ds, none =>
      if p.running < workerCount wanted then some { p with waiting := ds, tasks := p.tasks ++ [⟨d, none⟩] }
      else none
    | _, _ => none
  | .finish i =>
    match p.tasks[i]? with
    | some ⟨d, none⟩ => some { p with tasks := p.tasks.set i ⟨d, some (work d)⟩ }
    | _ => none
  | .collect =>
    match p.waiting, p.answer?, p.tasks with
    | [], none, [] => some { p with answer? := some (.ok p.gathered) }
    | [], none, ⟨_, some (.ok b)⟩ :: ts => some { p with tasks := ts, gathered := p.gathered.append b }
    | [], none, ⟨_, some (.error e)⟩ :: ts => some { p with tasks := ts, answer? := some (.error e) }
    | _, _, _ => none

def run (wanted : Nat) (work : RawDocument → Except DocumentError Batch) :
    List PoolEvent → Pool → Option Pool
  | [], p => some p
  | ev :: evs, p => (p.step wanted work ev).bind (run wanted work evs)

def pending (p : Pool) : List RawDocument := p.tasks.map Task.document ++ p.waiting

def outcome (work : RawDocument → Except DocumentError Batch) (p : Pool) : Except DocumentError Batch :=
  match p.answer? with
  | some a => a
  | none => (Batch.gather work p.pending).map p.gathered.append

/-- Some schedule of a pool leads to this answer. -/
def Answers (wanted : Nat) (work : RawDocument → Except DocumentError Batch) (ds : List RawDocument)
    (a : Except DocumentError Batch) : Prop :=
  ∃ evs p, run wanted work evs (start ds) = some p ∧ p.answer? = some a

end Pool

end Tabulate
