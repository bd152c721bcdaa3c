import Tabulate.Proofs.Qualified

/-! Positions in predicates. The paths that are read count from one on, also inside of predicates. -/
namespace Tabulate

mutual

def Path.fromOne : Path → Bool
  | .mk _ steps => stepsFromOne steps

def stepsFromOne : List Step → Bool
  | [] => true
  | s :: ss => s.fromOne && stepsFromOne ss

def Step.fromOne : Step → Bool
  | .self => true
  | .parent => true
  | .descendants => true
  | .child _ ps => predicatesFromOne ps
  | .attr _ ps => predicatesFromOne ps

def predicatesFromOne : List Predicate → Bool
  | [] => true
  | p :: ps => p.fromOne && predicatesFromOne ps

def Predicate.fromOne : Predicate → Bool
  | .position n => n != 0
  | .last => true
  | .holds p => p.fromOne
  | .equals p _ => p.fromOne

end

section Reading
variable {inner : List Char → Except PathError Path} {source cs : List Char}

theorem stepsFromOne_iff (ss : List Step) : stepsFromOne ss = true ↔ ∀ s ∈ ss, s.fromOne = true := by
  induction ss with
  | nil => simp [stepsFromOne]
  | cons s ss ih => simp [stepsFromOne, ih]

theorem predicatesFromOne_iff (ps : List Predicate) :
    predicatesFromOne ps = true ↔ ∀ p ∈ ps, p.fromOne = true := by
  induction ps with
  | nil => simp [predicatesFromOne]
  | cons p ps ih => simp [predicatesFromOne, ih]

/-- Paths inside predicates are read so that positions start at one. -/
def ReadsFromOne (inner : List Char → Except PathError Path) : Prop :=
  ∀ cs p, inner cs = .ok p → p.fromOne = true

theorem fromOne_of_map (hinner : ReadsFromOne inner) {f : Path → Predicate}
    (hf : ∀ p, (f p).fromOne = p.fromOne) {q : Predicate} (h : (inner cs).map f = .ok q) :
    q.fromOne = true := by
  cases hp : inner cs with
  | error e =>
    rw [hp] at h
    cases h
  | ok p =>
    rw [hp] at h
    cases h
    exact (hf p).trans (hinner cs p hp)

theorem predicate_fromOne (hinner : ReadsFromOne inner) (hnever : Nesting.never ']' {} cs = true) {q : Predicate}
    (h : Path.predicate inner source cs = .ok q) : q.fromOne = true := by
  rw [predicate_eq hnever] at h
  split at h
  · cases h
  split at h
  · cases h
    rfl
  split at h
  · cases h
  · next n hn _ =>
    cases h
    exact bne_iff_ne.2 hn
  · split at h
    · exact fromOne_of_map hinner (fun _ => rfl) h
    · exact fromOne_of_map hinner (fun _ => rfl) h

theorem test_fromOne {head : List Char} {ps : List Predicate} {s : Step} (hps : predicatesFromOne ps = true)
    (h : Path.test head ps = .ok s) : s.fromOne = true := by
  obtain ⟨_, t, -, -, rfl⟩ | ⟨-, rfl⟩ | ⟨-, rfl⟩ | ⟨-, -, -, t, -, rfl⟩ := test_cases h
  all_goals exact hps

theorem step_fromOne (hinner : ReadsFromOne inner) {s : Step} (h : Path.step inner source cs = .ok s) :
    s.fromOne = true := by
  obtain ⟨-, rfl⟩ | ⟨-, rfl⟩ | ⟨-, -, -, texts, ps, htexts, hps, htest⟩ := step_eq_ok.1 h
  · rfl
  · rfl
  · have hnever := never_of_brackets (.inl rfl) htexts
    exact test_fromOne ((predicatesFromOne_iff ps).2
      (forall_of_mapM (fun text ht _ => predicate_fromOne hinner (hnever text ht)) hps)) htest

/-- Paths that are read count positions from one on, also in their predicates. -/
theorem ofChars_fromOne (depth : Nat) : ReadsFromOne (Path.ofChars depth) := by
  induction depth with
  | zero => exact fun _ _ h => nomatch h
  | succ depth ih =>
    intro cs p h
    obtain ⟨-, absolute, texts, sss, -, hsteps, rfl⟩ := ofChars_eq_ok.1 h
    rw [Path.fromOne, stepsFromOne_iff]
    intro s hs
    obtain ⟨ss, hss, hs⟩ := List.mem_flatten.1 hs
    refine forall_of_mapM (P := fun ss => ∀ s ∈ ss, s.fromOne = true) ?_ hsteps ss hss s hs
    intro x _ ss hx
    obtain ⟨s, hstep, rfl⟩ := readStep_eq_ok.1 hx
    have hone := step_fromOne ih hstep
    split <;> simp [hone, Step.fromOne]

theorem read_fromOne {text : String} {w : WrittenPath} (h : Path.read text = .ok w) :
    w.path.fromOne = true :=
  ofChars_fromOne _ _ _ (read_eq_ok.1 h).1

end Reading

end Tabulate
