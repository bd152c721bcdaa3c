import Mathlib.Data.List.TakeWhile
import Tabulate.Xml.Prolog

/-! Readers look ahead, but never behind a closing bracket that they do not take. So the text behind one can be
exchanged: what is read in front of it stays the same. -/
namespace Tabulate.Xml

open Text (after? after?_eq_some_iff cut? startsWith)

variable {α β γ : Type}

/-- Where `f` answers `mk t`, a closing bracket stands in front of `t`, and whatever stands there instead of `t`
takes its place in the answer. -/
def Exchanges (f : List Char → Option β) (mk : List Char → β) : Prop :=
  ∀ ⦃cs t⦄, f cs = some (mk t) → ∃ p, cs = p ++ '>' :: t ∧ ∀ t', f (p ++ '>' :: t') = some (mk t')

def Local (f : List Char → Option (α × List Char)) : Prop := ∀ v q, Exchanges f fun t => (v, q ++ '>' :: t)

def LocalRest (f : List Char → Option (List Char)) : Prop := ∀ q, Exchanges f fun t => q ++ '>' :: t

def Closing (f : List Char → Option (α × List Char)) : Prop := ∀ v, Exchanges f fun t => (v, t)

@[simp] theorem after?_self (p cs : List Char) : after? p (p ++ cs) = some cs := after?_eq_some_iff.2 rfl

theorem ite_startsWith (k cs : List Char) (f : List Char → Option α) (a : Option α) :
    (if startsWith k cs = true then (after? k cs).bind f else a) =
      match after? k cs with
      | some r => f r
      | none => a := by
  cases h : after? k cs <;> simp [startsWith, h]

/-- A text as long as a pattern decides whether the pattern stands in front. -/
theorem after?_append_of_length {p as : List Char} (h : p.length ≤ as.length) (bs : List Char) :
    after? p (as ++ bs) = (after? p as).map (· ++ bs) := by
  induction p generalizing as with
  | nil => rfl
  | cons a p ih =>
    cases as with
    | nil => simp at h
    | cons c cs =>
      by_cases hc : a = c
      · simp [after?, hc, ih (Nat.le_of_succ_le_succ h)]
      · simp [after?, hc]

def Ahead (c : List Char → α) : Prop := ∀ q t t', c (q ++ '>' :: t) = c (q ++ '>' :: t')

theorem ahead_head? : Ahead (List.head? (α := Char)) := by
  intro q t t'
  cases q <;> rfl

theorem ahead_isEmpty : Ahead (List.isEmpty (α := Char)) := by
  intro q t t'
  cases q <;> rfl

theorem Ahead.map {c : List Char → α} (hc : Ahead c) (f : α → β) : Ahead fun cs => f (c cs) := by
  intro q t t'
  exact congrArg f (hc q t t')

/-- A pattern with no closing bracket but at its end is decided by the next closing bracket of the text. -/
theorem ahead_startsWith {k : List Char} (hk : '>' ∉ k.dropLast) : Ahead (startsWith k) := by
  intro q t t'
  induction k generalizing q with
  | nil => rfl
  | cons a k ih =>
    have hk' : '>' ∉ k.dropLast := fun h => by
      cases k with
      | nil => simp at h
      | cons b k => exact hk (by rw [List.dropLast_cons_cons]; exact List.mem_cons_of_mem a h)
    cases q with
    | cons c q =>
      have ih := ih hk' q
      by_cases hc : a = c <;> simp_all [startsWith, after?]
    | nil =>
      by_cases hc : a = '>'
      · cases k with
        | nil => simp [startsWith, after?, hc]
        | cons b k => exact absurd (by simp [hc]) hk
      · simp [startsWith, after?, hc]

/-- Where a text is cut at the first character that `p` does not hold of. -/
theorem span_eq_iff {p : Char → Bool} {cs as bs : List Char} : cs.takeWhile p = as ∧ cs.dropWhile p = bs ↔
    cs = as ++ bs ∧ (∀ c ∈ as, p c = true) ∧ bs.head?.any p = false := by
  constructor
  · rintro ⟨rfl, rfl⟩
    refine ⟨List.takeWhile_append_dropWhile.symm, fun c hc => List.mem_takeWhile_imp hc, ?_⟩
    have hnext := List.head?_dropWhile_not p cs
    cases hhead : (cs.dropWhile p).head? with
    | none => rfl
    | some c => simpa [hhead] using hnext
  · rintro ⟨rfl, hall, hnext⟩
    rw [List.takeWhile_append_of_pos hall, List.dropWhile_append_of_pos hall]
    cases bs with
    | nil => simp
    | cons c bs =>
      have hc : p c = false := hnext
      simp [hc]

theorem dropWhile_local {p : Char → Bool} {cs q t : List Char} (h : cs.dropWhile p = q ++ '>' :: t) :
    ∃ b, cs = b ++ '>' :: t ∧ ∀ t', (b ++ '>' :: t').takeWhile p = cs.takeWhile p ∧
      (b ++ '>' :: t').dropWhile p = q ++ '>' :: t' := by
  obtain ⟨hcs, hall, hnext⟩ := span_eq_iff.1 ⟨rfl, h⟩
  refine ⟨cs.takeWhile p ++ q, by simpa using hcs, fun t' => span_eq_iff.2 ⟨List.append_assoc .., hall, ?_⟩⟩
  rwa [ahead_head? q t' t]

theorem skipSpaces_local {cs q t : List Char} (h : skipSpaces cs = q ++ '>' :: t) :
    ∃ p, cs = p ++ '>' :: t ∧ ∀ t', skipSpaces (p ++ '>' :: t') = q ++ '>' :: t' := by
  obtain ⟨p, hp, hall⟩ := dropWhile_local h
  exact ⟨p, hp, fun t' => (hall t').2⟩

section Combining

variable {mk : List Char → γ}

theorem Exchanges.fail : Exchanges (fun _ => none) mk := by
  intro cs t h
  simp at h

theorem local_pure (v : α) : Local fun cs => some (v, cs) := by
  intro w q cs t h
  simp only [Option.some.injEq, Prod.mk.injEq] at h ⊢
  exact ⟨q, h.2, fun t' => ⟨h.1, rfl⟩⟩

theorem localRest_pure : LocalRest fun cs => some cs := by
  intro q cs t h
  exact ⟨q, Option.some.inj h, fun t' => rfl⟩

theorem Local.bind {f : List Char → Option (α × List Char)} {g : α × List Char → Option γ} (hf : Local f)
    (hg : ∀ v, Exchanges (fun cs => g (v, cs)) mk) : Exchanges (fun cs => (f cs).bind g) mk := by
  intro cs t h
  obtain ⟨⟨v, r⟩, hr, h⟩ := Option.bind_eq_some_iff.1 h
  obtain ⟨q, rfl, hq⟩ := hg v h
  obtain ⟨p, rfl, hp⟩ := hf v q hr
  exact ⟨p, rfl, fun t' => Option.bind_eq_some_iff.2 ⟨_, hp t', hq t'⟩⟩

theorem LocalRest.bind {f : List Char → Option (List Char)} {g : List Char → Option γ} (hf : LocalRest f)
    (hg : Exchanges g mk) : Exchanges (fun cs => (f cs).bind g) mk := by
  intro cs t h
  obtain ⟨r, hr, h⟩ := Option.bind_eq_some_iff.1 h
  obtain ⟨q, rfl, hq⟩ := hg h
  obtain ⟨p, rfl, hp⟩ := hf q hr
  exact ⟨p, rfl, fun t' => Option.bind_eq_some_iff.2 ⟨_, hp t', hq t'⟩⟩

theorem Local.rest {f : List Char → Option (α × List Char)} (hf : Local f) :
    LocalRest fun cs => (f cs).map (·.2) := by
  intro q cs t h
  obtain ⟨⟨v, r⟩, hr, rfl⟩ := Option.map_eq_some_iff.1 h
  obtain ⟨p, rfl, hp⟩ := hf v q hr
  exact ⟨p, rfl, fun t' => Option.map_eq_some_iff.2 ⟨_, hp t', rfl⟩⟩

theorem Closing.map {f : List Char → Option (α × List Char)} (hf : Closing f) (g : α → β) :
    Closing fun cs => (f cs).map fun r => (g r.1, r.2) := by
  intro w cs t h
  obtain ⟨⟨v, r⟩, hr, h⟩ := Option.map_eq_some_iff.1 h
  obtain ⟨rfl, rfl⟩ := Prod.mk.inj h
  obtain ⟨p, rfl, hp⟩ := hf v hr
  exact ⟨p, rfl, fun t' => Option.map_eq_some_iff.2 ⟨_, hp t', rfl⟩⟩

/-- What was read may be refused or changed when the rest of the text is passed on as it is. -/
theorem Closing.bind {f : List Char → Option (α × List Char)} {g : α × List Char → Option (β × List Char)}
    (hf : Closing f) (hg : ∀ v, ∃ x : Option β, ∀ cs, g (v, cs) = x.map (·, cs)) :
    Closing fun cs => (f cs).bind g := by
  intro w cs t h
  obtain ⟨⟨v, r⟩, hr, h⟩ := Option.bind_eq_some_iff.1 h
  obtain ⟨x, hx⟩ := hg v
  rw [hx, Option.map_eq_some_iff] at h
  obtain ⟨_, rfl, h⟩ := h
  obtain ⟨rfl, rfl⟩ := Prod.mk.inj h
  obtain ⟨p, rfl, hp⟩ := hf v hr
  exact ⟨p, rfl, fun t' => Option.bind_eq_some_iff.2 ⟨_, hp t', hx t'⟩⟩

theorem Exchanges.answer {f : List Char → Option (List Char)} (hf : Exchanges f fun t => t) (v : α) :
    Closing fun cs => (f cs).bind fun r => some (v, r) := by
  intro w cs t h
  obtain ⟨r, hr, h⟩ := Option.bind_eq_some_iff.1 h
  obtain ⟨rfl, rfl⟩ := Prod.mk.inj (Option.some.inj h)
  obtain ⟨p, rfl, hp⟩ := hf hr
  exact ⟨p, rfl, fun t' => Option.bind_eq_some_iff.2 ⟨_, hp t', rfl⟩⟩

/-- What does not depend on the text may fail or go on. -/
theorem Exchanges.constant {g : α → List Char → Option γ} (x : Option α) (hg : ∀ a, Exchanges (g a) mk) :
    Exchanges (fun cs => x.bind fun a => g a cs) mk := by
  cases x with
  | none => exact .fail
  | some a => exact hg a

theorem Exchanges.ite {c : List Char → Bool} {f g : List Char → Option γ} (hc : Ahead c) (hf : Exchanges f mk)
    (hg : Exchanges g mk) : Exchanges (fun cs => if c cs = true then f cs else g cs) mk := by
  intro cs t h
  dsimp only at h ⊢
  split at h
  · next hyes =>
    obtain ⟨p, rfl, hp⟩ := hf h
    exact ⟨p, rfl, fun t' => by rw [hc p t' t, if_pos hyes, hp]⟩
  · next hno =>
    obtain ⟨p, rfl, hp⟩ := hg h
    exact ⟨p, rfl, fun t' => by rw [hc p t' t, if_neg hno, hp]⟩

theorem Exchanges.drop {f : List Char → Option γ} (hf : Exchanges f mk) (n : Nat) :
    Exchanges (fun cs => f (cs.drop n)) mk := by
  intro cs t h
  obtain ⟨p, hdrop, hp⟩ := hf h
  have hlength : (cs.take n).length = n := by
    have := congrArg List.length hdrop
    simp only [List.length_drop, List.length_append, List.length_cons] at this
    simp only [List.length_take]
    omega
  refine ⟨cs.take n ++ p, by rw [List.append_assoc, ← hdrop, List.take_append_drop], fun t' => ?_⟩
  dsimp only
  rw [List.append_assoc, List.drop_left' hlength, hp]

theorem Exchanges.skipped {f : List Char → Option γ} (hf : Exchanges f mk) :
    Exchanges (fun cs => f (skipSpaces cs)) mk := by
  intro cs t h
  obtain ⟨q, hskip, hq⟩ := hf h
  obtain ⟨p, rfl, hp⟩ := skipSpaces_local hskip
  exact ⟨p, rfl, fun t' => (congrArg f (hp t')).trans (hq t')⟩

end Combining

theorem localRest_after? (k : List Char) : LocalRest (after? k) := by
  intro q cs t h
  rw [after?_eq_some_iff] at h
  refine ⟨k ++ q, by simpa using h, fun t' => ?_⟩
  rw [List.append_assoc, after?_self]

theorem closing_after? (k : List Char) : Exchanges (after? (k ++ ['>'])) fun t => t := by
  intro cs t h
  rw [after?_eq_some_iff] at h
  refine ⟨k, by simpa using h, fun t' => ?_⟩
  rw [after?_eq_some_iff, List.append_assoc, List.singleton_append]

theorem local_spaces? : LocalRest spaces? := by
  intro q cs t h
  cases cs with
  | nil => simp [spaces?] at h
  | cons c cs =>
    simp only [spaces?, Option.ite_none_right_eq_some, Option.some.injEq] at h
    obtain ⟨p, rfl, hp⟩ := skipSpaces_local h.2
    exact ⟨c :: p, rfl, fun t' => by simp [spaces?, h.1, hp]⟩

/-- A name goes on as long as characters of names do. -/
theorem name?_eq_some_iff {cs name rest : List Char} : name? cs = some (name, rest) ↔
    cs = name ++ rest ∧ name.head?.any isNameStart = true ∧ (∀ c ∈ name, isNameChar c = true) ∧
      rest.head?.any isNameChar = false := by
  have hchar {c : Char} (h : isNameStart c = true) : isNameChar c = true := by simp [isNameChar, h]
  cases cs with
  | nil =>
    refine iff_of_false (by simp [name?]) ?_
    rintro ⟨h, hstart, -⟩
    rw [(List.append_eq_nil_iff.1 h.symm).1] at hstart
    exact Bool.noConfusion hstart
  | cons a cs =>
    simp only [name?, Option.ite_none_right_eq_some, Option.some.injEq, Prod.mk.injEq]
    constructor
    · rintro ⟨hstart, rfl, hrest⟩
      obtain ⟨hcs, hall, hnext⟩ := span_eq_iff.1 ⟨rfl, hrest⟩
      exact ⟨congrArg (a :: ·) hcs, hstart, List.forall_mem_cons.2 ⟨hchar hstart, hall⟩, hnext⟩
    · rintro ⟨hcs, hstart, hall, hnext⟩
      cases name with
      | nil => exact Bool.noConfusion hstart
      | cons b name =>
        obtain ⟨rfl, hbehind⟩ : a = b ∧ cs = name ++ rest := by simpa using hcs
        obtain ⟨hname, hrest⟩ := span_eq_iff.2 ⟨hbehind, (List.forall_mem_cons.1 hall).2, hnext⟩
        exact ⟨hstart, by rw [hname], hrest⟩

theorem local_name? : Local name? := by
  intro v q cs t h
  obtain ⟨rfl, hstart, hall, hnext⟩ := name?_eq_some_iff.1 h
  refine ⟨v ++ q, by simp, fun t' => name?_eq_some_iff.2 ⟨List.append_assoc .., hstart, hall, ?_⟩⟩
  rwa [ahead_head? q t' t]

theorem local_qname? : Local qname? := by
  intro v q cs t h
  have hrest : cs.dropWhile isNameChar = q ++ '>' :: t := by grind [qname?]
  obtain ⟨p, hp, hall⟩ := dropWhile_local hrest
  refine ⟨p, hp, fun t' => ?_⟩
  simp only [qname?, hall] at h ⊢
  split at h
  · next own hown =>
    simp only [Option.ite_none_right_eq_some, Option.some.injEq, Prod.mk.injEq] at h ⊢
    exact ⟨h.1, h.2.1, trivial⟩
  · next space own hown =>
    simp only [Option.ite_none_right_eq_some, Option.some.injEq, Prod.mk.injEq] at h ⊢
    exact ⟨h.1, h.2.1, trivial⟩
  · exact absurd h (by simp)

/-- A text in quotes ends at the first quote, whatever follows. -/
theorem upToQuote?_eq_some_iff {quote : Char} {cs v r : List Char} :
    upToQuote? quote cs = some (v, r) ↔ cs = v ++ quote :: r ∧ quote ∉ v := by
  constructor
  · intro h
    unfold upToQuote? at h
    split at h
    · next c r' hr =>
      simp only [Option.some.injEq, Prod.mk.injEq] at h
      obtain ⟨rfl, rfl⟩ := h
      have hc := List.head?_dropWhile_not (· != quote) cs
      rw [hr] at hc
      simp only [List.head?_cons, bne_eq_false_iff_eq] at hc
      refine ⟨?_, fun hmem => by simpa using List.mem_takeWhile_imp hmem⟩
      rw [hc] at hr
      rw [← hr, List.takeWhile_append_dropWhile]
    · exact absurd h (by simp)
  · rintro ⟨rfl, hv⟩
    have hall : ∀ c ∈ v, (c != quote) = true := fun c hc => bne_iff_ne.2 fun e => hv (e ▸ hc)
    simp [upToQuote?, List.dropWhile_append_of_pos hall, List.takeWhile_append_of_pos hall]

theorem closing_upToQuote? : Closing (upToQuote? '>') := by
  intro v cs t h
  obtain ⟨rfl, hv⟩ := upToQuote?_eq_some_iff.1 h
  exact ⟨v, rfl, fun t' => upToQuote?_eq_some_iff.2 ⟨rfl, hv⟩⟩

/-- What stands behind the closing quote has no part in a text in quotes. -/
theorem quoted?_eq_some_iff {cs v r : List Char} :
    quoted? cs = some (v, r) ↔ ∃ q, (q = '"' ∨ q = '\'') ∧ cs = q :: (v ++ q :: r) ∧ q ∉ v := by
  cases cs with
  | nil => simp [quoted?]
  | cons c cs =>
    simp only [quoted?, Option.ite_none_right_eq_some, upToQuote?_eq_some_iff, List.cons.injEq]
    constructor
    · rintro ⟨hc, rfl, hv⟩
      exact ⟨c, hc, ⟨rfl, rfl⟩, hv⟩
    · rintro ⟨q, hq, ⟨rfl, rfl⟩, hv⟩
      exact ⟨hq, rfl, hv⟩

theorem local_quoted? : Local quoted? := by
  intro v q cs t h
  obtain ⟨c, hc, rfl, hv⟩ := quoted?_eq_some_iff.1 h
  exact ⟨c :: (v ++ c :: q), by simp, fun t' => quoted?_eq_some_iff.2 ⟨c, hc, by simp, hv⟩⟩

theorem local_attribute? : Local attribute? := by
  intro v q
  have hequals : LocalRest fun cs => after? ['='] (skipSpaces cs) := fun q => (localRest_after? _ q).skipped
  have hquoted : Local fun cs => quoted? (skipSpaces cs) := fun v q => (local_quoted? v q).skipped
  refine local_qname?.bind fun name => hequals.bind (hquoted.bind fun value => ?_)
  exact .ite (fun _ _ _ => rfl) .fail (.constant (documentChars? value) fun chars => local_pure _ _ _)

theorem local_declarationSpace? : LocalRest declarationSpace? := by
  intro q
  have hend : Ahead fun cs => cs.isEmpty || startsWith "?>".toList cs := by
    intro q t t'
    dsimp only
    rw [ahead_isEmpty q t t', ahead_startsWith (by decide) q t t']
  exact .ite (ahead_head?.map (·.any isSpace)) (localRest_pure q).skipped (.ite hend (localRest_pure q) .fail)

theorem local_declarationPart? (part : String) (hpart : '>' ∉ part.toList.dropLast) :
    LocalRest (declarationPart? part) := by
  intro q
  exact .ite (ahead_startsWith hpart) (local_attribute?.rest q) (localRest_pure q)

/-- The declaration of a document ends in a closing bracket and does not depend on what follows. -/
theorem closing_declaration? : Exchanges declaration? fun t => t := by
  have hend : Exchanges (fun cs => after? "?>".toList (skipSpaces cs)) fun t => t :=
    (closing_after? ['?']).skipped
  have hstandalone := (local_declarationPart? "standalone" (by decide)).bind hend
  have hencoding := (local_declarationPart? "encoding" (by decide)).bind
    (local_declarationSpace?.bind hstandalone)
  have hversion := (local_declarationPart? "version" (by decide)).bind
    (local_declarationSpace?.bind
      (.ite (ahead_startsWith (k := "encoding".toList) (by decide)) hencoding hstandalone))
  exact local_declarationSpace?.bind (.ite (ahead_startsWith (by decide)) hversion .fail)

theorem cut?_of_after? {p cs r : List Char} (h : after? p cs = some r) : cut? p cs = some ([], r) := by
  cases cs <;> simp [cut?, h]

/-- The first occurrence of a pattern is found at the same place whatever follows it. -/
theorem cut?_exchange {mark cs before t : List Char} (h : cut? mark cs = some (before, t))
    (t' : List Char) : cut? mark (before ++ mark ++ t') = some (before, t') := by
  induction before generalizing cs with
  | nil => exact cut?_of_after? (after?_self mark t')
  | cons b before ih =>
    have hcs : cs = b :: (before ++ mark) ++ t := by simpa using Text.eq_of_cut? h
    rw [hcs, List.cons_append, cut?] at h
    split at h
    · simp at h
    · next hhere =>
      simp only [Option.map_eq_some_iff, Prod.mk.injEq, List.cons.injEq, true_and] at h
      obtain ⟨⟨before', t''⟩, hlater, hbefore, ht⟩ := h
      rw [show before' = before from hbefore, show t'' = t from ht] at hlater
      -- the pattern is short enough that what follows its first occurrence has no say
      have hlength : mark.length ≤ (b :: (before ++ mark)).length := by simp; omega
      have hdecided := after?_append_of_length hlength
      have hnone : after? mark (b :: (before ++ mark)) = none := by
        rwa [← List.cons_append, hdecided t, Option.map_eq_none_iff] at hhere
      have hnone' : after? mark (b :: (before ++ mark ++ t')) = none := by
        simpa [hnone] using hdecided t'
      rw [List.cons_append, List.cons_append, cut?, hnone', ih hlater]
      rfl

theorem closing_upTo? {mark : String} {k : List Char} (hmark : mark.toList = k ++ ['>']) :
    Closing (upTo? mark) := by
  intro value cs t h
  simp only [upTo?, Option.bind_eq_bind, Option.bind_eq_some_iff, Prod.exists, Option.some.injEq,
    Prod.mk.injEq, hmark] at h
  obtain ⟨before, r, hcut, chars, hchars, rfl, rfl⟩ := h
  obtain rfl : chars = before := by
    simp only [documentChars?, Option.ite_none_right_eq_some, Option.some.injEq] at hchars
    exact hchars.2.symm
  refine ⟨chars ++ k, by simpa using Text.eq_of_cut? hcut, fun t' => ?_⟩
  have hcut' : cut? (k ++ ['>']) (chars ++ k ++ '>' :: t') = some (chars, t') := by
    simpa using cut?_exchange hcut t'
  simp only [upTo?, hmark, hcut', hchars, Option.bind_eq_bind, Option.bind_some]

theorem closing_comment? : Closing comment? := by
  have hvalue : Closing (upTo? "-->") := closing_upTo? (k := ['-', '-']) rfl
  refine hvalue.bind fun value => ?_
  refine ⟨if Text.contains ['-', '-'] value ∨ value.getLast? = some '-' then none
    else some (.comment value), fun cs => ?_⟩
  simp only
  split <;> rfl

theorem closing_instruction? : Closing instruction? := by
  intro v
  have htarget : Local fun cs => name? (cs.drop 2) := fun v q => (local_name? v q).drop 2
  have hcontent : Closing fun cs => upTo? "?>" (skipSpaces cs) := fun v =>
    (closing_upTo? (k := ['?']) rfl v).skipped
  refine .ite (ahead_startsWith (by decide)) .fail (htarget.bind fun target => ?_)
  exact hcontent.bind (fun content => ⟨some (.instruction target content), fun cs => rfl⟩) v

theorem externalId?_eq (cs : List Char) : externalId? cs =
    if startsWith "SYSTEM".toList cs = true then
      (after? "SYSTEM".toList cs).bind fun r => (spaces? r).bind fun r => (quoted? r).bind fun r => some (true, r.2)
    else if startsWith "PUBLIC".toList cs = true then
      (after? "PUBLIC".toList cs).bind fun r => (spaces? r).bind fun r => (quoted? r).bind fun r =>
        (spaces? r.2).bind fun r => (quoted? r).bind fun r => some (true, r.2)
    else some (false, cs) := by
  rw [externalId?, ite_startsWith, ite_startsWith]
  cases after? "SYSTEM".toList cs with
  | some r => rfl
  | none => cases after? "PUBLIC".toList cs <;> rfl

theorem local_externalId? : Local externalId? := by
  intro v q
  have hquoted := local_spaces?.bind
    (local_quoted?.bind (g := fun r => some (true, r.2)) fun _ => local_pure true v q)
  have hboth := local_spaces?.bind
    (local_quoted?.bind (g := fun r => (spaces? r.2).bind fun r => (quoted? r).bind fun r => some (true, r.2))
      fun _ => hquoted)
  rw [funext externalId?_eq]
  exact .ite (ahead_startsWith (by decide)) ((localRest_after? _).bind hquoted)
    (.ite (ahead_startsWith (by decide)) ((localRest_after? _).bind hboth) (local_pure false v q))

/-- A reference to something outside begins with its keyword. -/
theorem externalId?_cases {cs r : List Char} {found : Bool} (h : externalId? cs = some (found, r)) :
    found = false ∧ r = cs ∨ found = true ∧ (cs.head? = some 'S' ∨ cs.head? = some 'P') := by
  unfold externalId? at h
  split at h
  · next s hs =>
    obtain rfl := after?_eq_some_iff.1 hs
    simp only [Option.bind_eq_bind, Option.bind_eq_some_iff, Option.some.injEq, Prod.mk.injEq] at h
    obtain ⟨_, -, _, -, rfl, -⟩ := h
    exact .inr ⟨rfl, .inl rfl⟩
  · next s _ hs =>
    obtain rfl := after?_eq_some_iff.1 hs
    simp only [Option.bind_eq_bind, Option.bind_eq_some_iff, Option.some.injEq, Prod.mk.injEq] at h
    obtain ⟨_, -, _, -, _, -, _, -, rfl, -⟩ := h
    exact .inr ⟨rfl, .inr rfl⟩
  · obtain ⟨rfl, rfl⟩ := Prod.mk.inj (Option.some.inj h)
    exact .inl ⟨rfl, rfl⟩

end Tabulate.Xml
