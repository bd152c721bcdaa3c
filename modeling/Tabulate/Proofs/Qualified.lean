import Tabulate.Proofs.Readings

/-! Paths that are given the alias of the default namespace. Qualifying a path marks its text behind
slashes; it is read as the path it was before, but for the alias, exactly where all these marks are
harmless. -/
namespace Tabulate

open MarkedText (plain shown)
open Xml (Namespaces)
open Xml.Namespaces (isBareStep)

def piece (cs : List Char) : List Char := cs.takeWhile (· != '/')

def markPieces : Bool → List Char → MarkedText
  | _, [] => []
  | fresh, c :: cs =>
    if fresh && isBareStep (piece (c :: cs)) then none :: some c :: markPieces (c = '/') cs
    else some c :: markPieces (c = '/') cs

/-- Whether the alias of the default namespace goes into a path only where it is harmless. -/
def marksHarmless (path : String) : Bool := allHarmless [] {} (markPieces true path.toList)

section Pieces
variable {c : Char} {cs : List Char}

def markPiece (p : List Char) : List Char := if isBareStep p then '_' :: ':' :: p else p

theorem piece_slash (cs : List Char) : piece ('/' :: cs) = [] := rfl

theorem piece_cons (h : c ≠ '/') : piece (c :: cs) = c :: piece cs :=
  List.takeWhile_cons_of_pos (bne_iff_ne.2 h)

theorem markable_of_isBareStep (h : isBareStep (piece (c :: cs)) = true) : Markable (c :: cs) := by
  have hslash : c ≠ '/' := by
    rintro rfl
    exact absurd h Bool.false_ne_true
  have hname : (c :: cs).takeWhile (fun x => x != '[' && x != '/') =
      (c :: piece cs).takeWhile (· != '[') := by
    rw [← piece_cons hslash, piece, List.takeWhile_takeWhile]
    congr 1
    funext x
    rw [Bool.decide_and, Bool.decide_eq_true, Bool.decide_eq_true]
  rw [piece_cons hslash, isBareStep] at h
  split at h
  · cases h
  · next hfirst =>
    simp only [Bool.and_eq_true, Bool.not_eq_true', List.contains_eq_mem, decide_eq_false_iff_not] at h
    refine ⟨fun x hx => ?_, by rw [hname]; exact h.1⟩
    cases hx
    rw [List.mem_cons, not_or]
    exact ⟨hslash, by simpa using hfirst⟩

@[simp] theorem plain_markPieces (b : Bool) (cs : List Char) : plain (markPieces b cs) = cs := by
  induction cs generalizing b with
  | nil => rfl
  | cons c cs ih =>
    rw [markPieces]
    split <;> simp [plain, ih]

theorem placed_markPieces (b : Bool) (cs : List Char) : Placed b (markPieces b cs) := by
  induction cs generalizing b with
  | nil => exact .nil
  | cons c cs ih =>
    rw [markPieces]
    split
    · next hmark =>
      rw [Bool.and_eq_true] at hmark
      obtain ⟨rfl, hbare⟩ := hmark
      refine .mark ?_ (.char (ih _))
      rw [plain, plain_markPieces]
      exact markable_of_isBareStep hbare
    · exact .char (ih _)

/-- Marking the pieces one by one is marking them where they stand. -/
theorem splitOn_slash (cs : List Char) : ∃ ps, cs.splitOn '/' = piece cs :: ps ∧
    shown (markPieces false cs) = ['/'].intercalate (piece cs :: ps.map markPiece) ∧
    shown (markPieces true cs) = ['/'].intercalate (markPiece (piece cs) :: ps.map markPiece) := by
  induction cs with
  | nil => exact ⟨[], rfl, rfl, rfl⟩
  | cons c cs ih =>
    obtain ⟨ps, hsplit, hfalse, htrue⟩ := ih
    by_cases hc : c = '/'
    · subst hc
      have hpiece : isBareStep (piece ('/' :: cs)) = false := rfl
      have hmark (b : Bool) : shown (markPieces b ('/' :: cs)) = '/' :: shown (markPieces true cs) := by
        rw [markPieces, hpiece, Bool.and_false]
        rfl
      refine ⟨piece cs :: ps, ?_, ?_, ?_⟩
      · rw [List.splitOn_cons_eq_if_modifyHead, if_pos (beq_self_eq_true _), hsplit, piece_slash]
      · rw [hmark, htrue, piece_slash, List.map_cons, List.intercalate_cons_cons]
        rfl
      · rw [hmark, htrue, piece_slash, List.map_cons, List.intercalate_cons_cons]
        rfl
    · have hnext : decide (c = '/') = false := decide_eq_false hc
      have hhead (x : List Char) (p : List Char) :
          ['/'].intercalate ((x ++ p) :: ps.map markPiece) =
            x ++ ['/'].intercalate (p :: ps.map markPiece) := by
        cases ps with
        | nil => simp [List.intercalate]
        | cons q ps => simp only [List.map_cons, List.intercalate_cons_cons, List.append_assoc]
      refine ⟨ps, ?_, ?_, ?_⟩
      · rw [List.splitOn_cons_eq_if_modifyHead, if_neg (by simpa using hc), hsplit, piece_cons hc]
        rfl
      · rw [markPieces, Bool.false_and, if_neg Bool.false_ne_true, hnext, shown, hfalse, piece_cons hc]
        exact (hhead [c] _).symm
      · rw [markPieces, Bool.true_and, hnext, piece_cons hc, markPiece]
        split
        · rw [shown, shown, hfalse]
          exact (hhead ['_', ':', c] _).symm
        · rw [shown, hfalse]
          exact (hhead [c] _).symm

end Pieces

section Qualifying
variable {m : Namespaces} {uri path : String}

theorem qualify_eq_shown (hm : m.default? = some uri) (path : String) :
    (m.qualify path).toList = shown (markPieces true path.toList) := by
  obtain ⟨ps, hsplit, -, htrue⟩ := splitOn_slash path.toList
  rw [Namespaces.qualify, hm, htrue]
  dsimp only
  rw [String.toList_ofList, hsplit]
  rfl

theorem read_eq_ok {w : WrittenPath} : Path.read path = .ok w ↔
    Path.ofChars (path.toList.length + 1) path.toList = .ok w.path ∧ w.source = path := by
  rw [Path.read]
  cases Path.ofChars (path.toList.length + 1) path.toList with
  | error e => simp [Except.map]
  | ok p =>
    obtain ⟨source, p'⟩ := w
    simp only [Except.map, Except.ok.injEq, WrittenPath.mk.injEq]
    constructor
    · rintro ⟨rfl, rfl⟩
      exact ⟨rfl, rfl⟩
    · rintro ⟨rfl, rfl⟩
      exact ⟨rfl, rfl⟩

/-- A path is read with the alias as it is without, but for the alias, exactly where all marks are
harmless. -/
theorem read_qualify (hm : m.default? = some uri) {w : WrittenPath} (hw : Path.read path = .ok w) :
    marksHarmless path = true ↔
      ∃ w', Path.read (m.qualify path) = .ok w' ∧ w'.path.bare = w.path.bare := by
  obtain ⟨hp, -⟩ := read_eq_ok.1 hw
  have hplain := plain_markPieces true path.toList
  have hlength : path.toList.length ≤ (m.qualify path).toList.length := by
    have hshown := length_shown (markPieces true path.toList)
    rw [qualify_eq_shown hm, hshown, hplain]
    exact Nat.le_add_right _ _
  rw [← hplain] at hp
  rw [marksHarmless, ofChars_marked _ ((m.qualify path).toList.length + 1)
    (Nat.succ_le_succ (by rwa [hplain])) (placed_markPieces true _) hp, ← qualify_eq_shown hm]
  constructor
  · rintro ⟨p', hp', hbare⟩
    exact ⟨⟨_, p'⟩, read_eq_ok.2 ⟨hp', rfl⟩, hbare⟩
  · rintro ⟨w', hw', hbare⟩
    exact ⟨w'.path, (read_eq_ok.1 hw').1, hbare⟩

end Qualifying

end Tabulate
