import Tabulate.Proofs.Readers

/-! The declarations of a document type one by one. Each ends in a closing bracket, so whole declarations can
stand in front of others, and those of a file in front of a document's own. -/
namespace Tabulate.Xml

open Text (after? after?_eq_some_iff startsWith)

def declared? (cs : List Char) : Option (List Token × List Char) :=
  match after? "<!ENTITY".toList cs, after? "<!--".toList cs with
  | some rest, _ => entity? rest
  | none, some rest => (comment? rest).map fun r => ([r.1], r.2)
  | none, none =>
    if startsWith "<?".toList cs then (instruction? cs).map fun r => ([r.1], r.2)
    else if ["<!ELEMENT", "<!ATTLIST", "<!NOTATION"].any (startsWith ·.toList cs) then
      (upToQuote? '>' cs).map fun r => ([], r.2)
    else none

theorem subset?_end (fuel : Nat) {cs rest : List Char} (h : skipSpaces cs = ']' :: rest) :
    subset? (fuel + 1) cs = (after? ['>'] (skipSpaces rest)).map ([], ·) :=
  subset?.eq_3 fuel cs rest (fun e => by simp [e, skipSpaces] at h) h

/-- A subset that is not at its end begins with a declaration. -/
theorem subset?_declared (fuel : Nat) {cs : List Char} (hcs : cs ≠ [])
    (hend : ∀ rest, skipSpaces cs ≠ ']' :: rest) : subset? (fuel + 1) cs =
      (declared? (skipSpaces cs)).bind fun d => (subset? fuel d.2).map fun s => (d.1 ++ s.1, s.2) := by
  rw [subset?.eq_4 fuel cs hcs hend, declared?]
  simp only [Option.bind_eq_bind, Option.map_eq_bind]
  cases after? "<!ENTITY".toList (skipSpaces cs) with
  | some r => rfl
  | none =>
    cases after? "<!--".toList (skipSpaces cs) with
    | some r =>
      simp only [Option.bind_assoc]
      rfl
    | none =>
      simp only
      split
      · simp only [Option.bind_assoc]
        rfl
      · split
        · simp only [Option.bind_assoc]
          refine Option.bind_congr fun r _ => ?_
          simp only [Function.comp_apply, Option.bind_some]
          cases subset? fuel r.2 <;> rfl
        · rfl

theorem subset?_of_declared? {cs r : List Char} {ts : List Token}
    (h : declared? (skipSpaces cs) = some (ts, r)) (fuel : Nat) :
    subset? (fuel + 1) cs = (subset? fuel r).map fun s => (ts ++ s.1, s.2) := by
  have hcs : cs ≠ [] := fun e => by
    rw [e, skipSpaces, List.dropWhile_nil, show declared? [] = none from rfl] at h
    simp at h
  have hend (rest : List Char) : skipSpaces cs ≠ ']' :: rest := fun e => by
    rw [e, show declared? (']' :: rest) = none from rfl] at h
    simp at h
  rw [subset?_declared fuel hcs hend, h, Option.bind_some]

/-- More fuel than is needed changes nothing. -/
theorem subset?_succ {n : Nat} {cs : List Char} {s : List Token × List Char} (h : subset? n cs = some s) :
    subset? (n + 1) cs = some s := by
  induction n generalizing cs s with
  | zero => simp [subset?] at h
  | succ n ih =>
    by_cases hcs : cs = []
    · subst hcs
      simpa [subset?] using h
    by_cases hend : ∃ rest, skipSpaces cs = ']' :: rest
    · obtain ⟨rest, hend⟩ := hend
      rwa [subset?_end _ hend] at h ⊢
    · rw [subset?_declared _ hcs fun rest e => hend ⟨rest, e⟩] at h ⊢
      obtain ⟨d, hd, h⟩ := Option.bind_eq_some_iff.1 h
      obtain ⟨s', hs', rfl⟩ := Option.map_eq_some_iff.1 h
      rw [hd, Option.bind_some, ih hs', Option.map_some]

theorem subset?_mono {n m : Nat} (hnm : n ≤ m) {cs : List Char} {s : List Token × List Char}
    (h : subset? n cs = some s) : subset? m cs = some s := by
  induction hnm with
  | refl => exact h
  | step _ ih => exact subset?_succ ih

/-- Spaces in front of a subset are passed over. -/
theorem subset?_spaces {cs cs' : List Char} (hskip : skipSpaces cs = skipSpaces cs') (hcs : cs ≠ [])
    (hcs' : cs' ≠ []) (fuel : Nat) : subset? fuel cs = subset? fuel cs' := by
  cases fuel with
  | zero => rfl
  | succ fuel =>
    by_cases hend : ∃ rest, skipSpaces cs = ']' :: rest
    · obtain ⟨rest, hend⟩ := hend
      rw [subset?_end _ hend, subset?_end _ (hskip ▸ hend)]
    · rw [subset?_declared _ hcs fun rest e => hend ⟨rest, e⟩,
        subset?_declared _ hcs' fun rest e => hend ⟨rest, hskip ▸ e⟩, hskip]

def isQuote (c : Char) : Bool := c = '"' ∨ c = '\''

def unparsed? (cs : List Char) : Option (Option (List Char) × List Char) :=
  if startsWith "NDATA".toList cs = true then
    (after? "NDATA".toList cs).bind fun r => (spaces? r).bind fun r => (name? r).bind fun n => some (none, n.2)
  else some (none, cs)

/-- A value in quotes begins with a quote, a reference to something outside with its keyword. -/
theorem entityValue?_eq (general : Bool) (cs : List Char) : entityValue? general cs =
    if cs.head?.any isQuote = true then (quoted? cs).bind fun v => some (some v.1, v.2)
    else (externalId? cs).bind fun e => if e.1 = true then
      if general = true then unparsed? (skipSpaces e.2) else some (none, e.2)
    else none := by
  rw [entityValue?]
  split
  · next value rest hvalue =>
    obtain ⟨c, hc, rfl, -⟩ := quoted?_eq_some_iff.1 hvalue
    rw [if_pos (by simpa [isQuote] using hc), hvalue]
    rfl
  · next hno =>
    by_cases hquote : cs.head?.any isQuote = true
    · rw [if_pos hquote, hno, Option.bind_none]
      refine Option.bind_eq_none_iff.2 fun e he => ?_
      obtain ⟨found, r⟩ := e
      rcases externalId?_cases he with ⟨rfl, -⟩ | ⟨-, hhead⟩
      · rfl
      · rcases hhead with hhead | hhead
        all_goals exact absurd (hhead ▸ hquote) (by decide)
    · rw [if_neg hquote]
      refine Option.bind_congr fun e _ => ?_
      obtain ⟨found, r⟩ := e
      dsimp only
      rw [unparsed?, ite_startsWith]
      cases found <;> cases general <;> cases after? "NDATA".toList (skipSpaces r) <;> rfl

theorem local_unparsed? : Local unparsed? := by
  intro v q
  have hname := local_spaces?.bind (local_name?.bind (g := fun n => some (none, n.2)) fun _ => local_pure none v q)
  exact .ite (ahead_startsWith (by decide)) ((localRest_after? _).bind hname) (local_pure none v q)

theorem local_entityValue? (general : Bool) : Local (entityValue? general) := by
  intro v q
  have hvalue := local_quoted?.bind (g := fun v => some (some v.1, v.2)) fun value => local_pure (some value) v q
  have hexternal (found : Bool) : Exchanges (fun cs => if found = true then
      if general = true then unparsed? (skipSpaces cs) else some (none, cs) else none)
      fun t => (v, q ++ '>' :: t) :=
    .ite (fun _ _ _ => rfl) (.ite (fun _ _ _ => rfl) (local_unparsed? v q).skipped (local_pure none v q)) .fail
  rw [funext (entityValue?_eq general)]
  exact .ite (ahead_head?.map (·.any isQuote)) hvalue (local_externalId?.bind hexternal)

def named? (general : Bool) (cs : List Char) : Option (List Token × List Char) :=
  (name? cs).bind fun n => (spaces? n.2).bind fun r => (entityValue? general r).bind fun v =>
    (after? ['>'] (skipSpaces v.2)).bind fun r =>
      some (if general = true then v.1.elim [] fun value => [.entity n.1 value] else [], r)

theorem entity?_eq (cs : List Char) : entity? cs = (spaces? cs).bind fun r =>
    if (r.head? != some '%') = true then named? true r else (spaces? (r.drop 1)).bind (named? false) := by
  rw [entity?]
  refine Option.bind_congr fun r _ => ?_
  cases hhead : (r.head? != some '%') with
  | true =>
    refine Option.bind_congr fun n _ => Option.bind_congr fun r _ => Option.bind_congr fun v _ => ?_
    refine Option.bind_congr fun r _ => ?_
    obtain ⟨value, _⟩ := v
    cases value <;> rfl
  | false =>
    refine Option.bind_congr fun r _ => Option.bind_congr fun n _ => Option.bind_congr fun r _ => ?_
    refine Option.bind_congr fun v _ => Option.bind_congr fun r _ => ?_
    obtain ⟨value, _⟩ := v
    cases value <;> rfl

theorem closing_named? (general : Bool) : Closing (named? general) := by
  intro ts
  have hend : Exchanges (fun cs => after? ['>'] (skipSpaces cs)) fun t => t := (closing_after? []).skipped
  refine local_name?.bind fun name => ?_
  dsimp only
  refine local_spaces?.bind ((local_entityValue? general).bind fun value => ?_)
  exact hend.answer (if general = true then value.elim [] fun v => [.entity name v] else []) ts

theorem closing_entity? : Closing entity? := by
  intro ts
  have hparameter : Exchanges (fun cs => (spaces? (cs.drop 1)).bind (named? false)) fun t => (ts, t) :=
    (local_spaces?.bind (closing_named? false ts)).drop 1
  rw [funext entity?_eq]
  exact local_spaces?.bind (.ite (ahead_head?.map (· != some '%')) (closing_named? true ts) hparameter)

theorem declared?_eq (cs : List Char) : declared? cs =
    if startsWith "<!ENTITY".toList cs = true then (after? "<!ENTITY".toList cs).bind entity?
    else if startsWith "<!--".toList cs = true then
      (after? "<!--".toList cs).bind fun r => (comment? r).map fun r => ([r.1], r.2)
    else if startsWith "<?".toList cs = true then (instruction? cs).map fun r => ([r.1], r.2)
    else if ["<!ELEMENT", "<!ATTLIST", "<!NOTATION"].any (startsWith ·.toList cs) = true then
      (upToQuote? '>' cs).map fun r => ([], r.2)
    else none := by
  rw [declared?, ite_startsWith, ite_startsWith]
  cases after? "<!ENTITY".toList cs with
  | some r => rfl
  | none => cases after? "<!--".toList cs <;> rfl

theorem closing_declared? : Closing declared? := by
  intro ts
  have hmarkup : Ahead fun cs => ["<!ELEMENT", "<!ATTLIST", "<!NOTATION"].any (startsWith ·.toList cs) := by
    intro q t t'
    simp only [List.any_cons, List.any_nil]
    rw [ahead_startsWith (by decide) q t t', ahead_startsWith (by decide) q t t',
      ahead_startsWith (by decide) q t t']
  rw [funext declared?_eq]
  exact .ite (ahead_startsWith (by decide)) ((localRest_after? _).bind (closing_entity? ts))
    (.ite (ahead_startsWith (by decide)) ((localRest_after? _).bind (closing_comment?.map ([·]) ts))
      (.ite (ahead_startsWith (by decide)) (closing_instruction?.map ([·]) ts)
        (.ite hmarkup (closing_upToQuote?.map (fun _ => []) ts) .fail)))

/-- The tokens of a text of whole declarations, such as a file that a document type refers to. -/
def declarations? : Nat → List Char → Option (List Token)
  | 0, _ => none
  | fuel + 1, cs =>
    match skipSpaces cs with
    | [] => some []
    | cs => do
      let (ts, rest) ← declared? cs
      let following ← declarations? fuel rest
      some (ts ++ following)

/-- Whole declarations can be put in front of those of a document. -/
theorem subset?_append {n m : Nat} {cs own after : List Char} {ts ts' : List Token}
    (h : declarations? n cs = some ts) (hown : subset? m own = some (ts', after)) (hne : own ≠ []) :
    subset? (n + m) (cs ++ '\n' :: own) = some (ts ++ ts', after) := by
  induction n generalizing cs ts with
  | zero => simp [declarations?] at h
  | succ n ih =>
    rw [declarations?] at h
    split at h
    · next hspaces =>
      obtain rfl := Option.some.inj h
      have hall : ∀ c ∈ cs, isSpace c = true := List.dropWhile_eq_nil_iff.1 hspaces
      have hskip : skipSpaces (cs ++ '\n' :: own) = skipSpaces own := by
        rw [skipSpaces, List.dropWhile_append_of_pos hall]
        rfl
      rw [subset?_spaces hskip (by simp) hne]
      exact subset?_mono (by omega) hown
    · simp only [Option.bind_eq_bind, Option.bind_eq_some_iff, Prod.exists, Option.some.injEq] at h
      obtain ⟨d, rest, hd, following, hfollowing, rfl⟩ := h
      obtain ⟨b, rfl, hb⟩ := (closing_declared? d).skipped hd
      have hd' : declared? (skipSpaces (b ++ '>' :: rest ++ '\n' :: own)) = some (d, rest ++ '\n' :: own) := by
        simpa using hb (rest ++ '\n' :: own)
      rw [Nat.succ_add, subset?_of_declared? hd', ih hfollowing]
      simp

end Tabulate.Xml
