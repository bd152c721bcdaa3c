import Tabulate.Proofs.Effects
import Tabulate.Proofs.Grammar
import Tabulate.Proofs.Positions

/-! What can be read back. Names lose blanks at the ends of steps, two colons in a row are taken for an
axis wherever they stand, and numbers end where they do not fit in a word; so no path that is read has
any of them. -/
namespace Tabulate

open Effects
open Text (contains isBlank trim)

def headReadable (head : List Char) (ps : List Predicate) : Bool :=
  head.head?.all (!isBlank ·) && (!ps.isEmpty || head.getLast?.all (!isBlank ·))

mutual

def Path.readable : Path → Bool
  | .mk _ steps => stepsReadable steps

def stepsReadable : List Step → Bool
  | [] => true
  | s :: ss => s.readable && stepsReadable ss

def Step.readable : Step → Bool
  | .self => true
  | .parent => true
  | .descendants => true
  | .child test ps => headReadable (StepHead.child test).text ps && predicatesReadable ps
  | .attr test ps => headReadable (StepHead.attr test).text ps && predicatesReadable ps

def predicatesReadable : List Predicate → Bool
  | [] => true
  | p :: ps => p.readable && predicatesReadable ps

def Predicate.readable : Predicate → Bool
  | .position n => n < bitLimit 64
  | .last => true
  | .holds p => p.readable
  | .equals p literal => p.readable && !contains [':', ':'] literal.toList

end

theorem stepsReadable_iff (ss : List Step) : stepsReadable ss = true ↔ ∀ s ∈ ss, s.readable = true := by
  induction ss with
  | nil => simp [stepsReadable]
  | cons s ss ih => simp [stepsReadable, ih]

theorem predicatesReadable_iff (ps : List Predicate) :
    predicatesReadable ps = true ↔ ∀ p ∈ ps, p.readable = true := by
  induction ps with
  | nil => simp [predicatesReadable]
  | cons p ps ih => simp [predicatesReadable, ih]

theorem StepHead.readable_step (head : StepHead) (ps : List Predicate) :
    (head.step ps).readable = (headReadable head.text ps && predicatesReadable ps) := by
  cases head <;> rfl

section Texts
variable {p as bs cs : List Char}

theorem contains_iff : contains p cs = true ↔ p <:+: cs := by
  induction cs with
  | nil =>
    cases p with
    | nil => simp [contains, Text.cut?, Text.after?]
    | cons c p => simp [contains, Text.cut?, Text.after?]
  | cons c cs ih =>
    have hprefix : Text.startsWith p (c :: cs) = true ↔ p <+: c :: cs := by
      rw [Text.startsWith, Option.isSome_iff_exists]
      exact exists_congr fun rest => Text.after?_eq_some_iff.trans eq_comm
    rw [contains_cons, Bool.or_eq_true, hprefix, ih, List.infix_cons_iff]

theorem not_contains_mono (h : as <:+: bs) (hb : contains p bs = false) : contains p as = false := by
  rw [Bool.eq_false_iff, ne_eq, contains_iff] at hb ⊢
  exact fun ha => hb (ha.trans h)

theorem infix_trim (cs : List Char) : trim cs <:+: cs := by
  obtain ⟨bs, hcs, -⟩ := eq_append_trimStart cs
  obtain ⟨es, hes, -⟩ := eq_trimEnd_append (Text.trimStart cs)
  refine ⟨bs, es, ?_⟩
  rw [List.append_assoc]
  exact (congrArg (bs ++ ·) hes.symm).trans hcs.symm

theorem isBlank_getLast_trim {c : Char} (h : c ∈ (trim cs).getLast?) : isBlank c = false := by
  have hlast := List.head?_dropWhile_not isBlank (Text.trimStart cs).reverse
  rw [trim, Text.trimEnd, List.getLast?_reverse, Option.mem_def] at h
  rwa [h] at hlast

theorem infix_unquote (cs : List Char) : Path.unquote cs <:+: cs := by
  cases cs with
  | nil => exact List.infix_rfl
  | cons c cs =>
    rw [unquote_cons]
    split
    · exact (List.dropLast_prefix cs).isInfix.trans (List.suffix_cons c cs).isInfix
    · exact List.infix_rfl

/-- Predicates are parts of the text that they are cut out of. -/
theorem infix_of_brackets {n : Nesting} {inner : List Char} {ts : List (List Char)}
    (h : Path.brackets n inner cs = some ts) : ∀ t ∈ ts, t <:+: inner.reverse ++ cs := by
  induction cs generalizing n inner ts with
  | nil =>
    cases h
    exact List.forall_mem_nil _
  | cons c cs ih =>
    have hmore {m : Nesting} {us : List (List Char)} (hus : Path.brackets m (c :: inner) cs = some us) :
        ∀ t ∈ us, t <:+: inner.reverse ++ c :: cs := by
      intro t ht
      have hinfix := ih hus t ht
      rwa [List.reverse_cons, List.append_assoc] at hinfix
    rw [Path.brackets] at h
    split at h
    · exact hmore h
    split at h
    · split at h
      · intro t ht
        exact (ih h t ht).trans ((List.suffix_cons c cs).trans (List.suffix_append ..)).isInfix
      · exact hmore h
    split at h
    · cases h
    split at h
    · obtain ⟨us, hus, rfl⟩ := Option.map_eq_some_iff.1 h
      exact List.forall_mem_cons.2 ⟨(List.prefix_append ..).isInfix, hmore hus⟩
    · exact hmore h

def digitsValue (ds : List Char) : Nat := ds.foldl (fun n c => n * 10 + (c.toNat - 48)) 0

theorem number?_eq (cs : List Char) : Path.number? cs =
    if (numerals cs).isEmpty || !(numerals cs).all Char.isDigit then none
    else if digitsValue (numerals cs) < bitLimit 64 then some (digitsValue (numerals cs)) else none := rfl

theorem number?_lt {n : Nat} (h : Path.number? cs = some n) : n < bitLimit 64 := by
  rw [number?_eq] at h
  split at h
  · cases h
  · split at h
    · next hlt =>
      cases h
      exact hlt
    · cases h

theorem nameTest_text {name : List Char} {t : NameTest} (h : Path.nameTest name = .ok t) : t.text = name := by
  rw [Path.nameTest] at h
  split at h
  · cases h
  split at h
  · next hstar =>
    cases h
    exact hstar.symm
  split at h
  · cases h
  have hname := (List.takeWhile_append_dropWhile (p := (· != ':')) (l := name))
  split at h
  · next hnone =>
    cases h
    simp [NameTest.text]
  · next hstar =>
    cases h
    rw [hstar] at hname
    simpa [NameTest.text] using hname
  · next c own hcut hown =>
    cases h
    have hcolon : c = ':' := by
      have hhead := List.head?_dropWhile_not (· != ':') name
      rw [hown] at hhead
      simpa using hhead
    rw [hown, hcolon] at hname
    simpa [NameTest.text] using hname

/-- What is tested is written in front of the predicates. -/
theorem exists_stepHead {head : List Char} {ps : List Predicate} {S : Step} (h : Path.test head ps = .ok S) :
    ∃ k : StepHead, k.text = head ∧ S = k.step ps := by
  obtain ⟨name, t, rfl, ht, rfl⟩ | ⟨rfl, rfl⟩ | ⟨rfl, rfl⟩ | ⟨-, -, -, t, ht, rfl⟩ := test_cases h
  · exact ⟨.attr t, congrArg ('@' :: ·) (nameTest_text ht), rfl⟩
  · exact ⟨.child .text, rfl, rfl⟩
  · exact ⟨.child .node, rfl, rfl⟩
  · exact ⟨.child (.name t), nameTest_text ht, rfl⟩

end Texts

theorem isPart_of_outline {cs : List Char} {absolute : Bool} {texts : List (Bool × List Char)}
    (h : Path.outline cs = .ok (absolute, texts)) : ∀ x ∈ texts, IsPart {} x.2 := by
  have hsteps (doubled : Bool) (ps : List (List Char)) : ∀ x ∈ Path.stepTexts doubled ps, x.2 ∈ ps := by
    induction ps generalizing doubled with
    | nil => exact List.forall_mem_nil _
    | cons p ps ih =>
      cases p with
      | nil => exact fun x hx => List.mem_cons_of_mem _ (ih true x hx)
      | cons c p =>
        refine List.forall_mem_cons.2 ⟨List.mem_cons_self, fun x hx => List.mem_cons_of_mem _ (ih false x hx)⟩
  obtain ⟨ps, hps, h⟩ := except_bind_eq_ok.1 h
  obtain ⟨-, -, p, qs, rfl, -, hp, hqs⟩ := parts_eq_ok hps
  have hparts : ∀ q ∈ p :: qs, IsPart {} q := List.forall_mem_cons.2 ⟨hp, hqs⟩
  split at h
  · cases h
    exact List.forall_mem_nil _
  · next ps _ hcut =>
    cases hcut
    split at h
    · cases h
    · cases h
      exact fun x hx => hqs x.2 (hsteps false _ x hx)
  · split at h
    · cases h
    · cases h
      exact fun x hx => hparts x.2 (hsteps false _ x hx)

section Reading
variable {inner : List Char → Except PathError Path} {source cs : List Char}

def ReadsReadable (inner : List Char → Except PathError Path) : Prop :=
  ∀ cs p, inner cs = .ok p → p.readable = true

theorem predicate_readable (hinner : ReadsReadable inner) (hcolons : contains [':', ':'] cs = false)
    (hnever : Nesting.never ']' {} cs = true) {q : Predicate} (h : Path.predicate inner source cs = .ok q) : q.readable = true := by
  have htrim : contains [':', ':'] (trim cs) = false := not_contains_mono (infix_trim cs) hcolons
  rw [predicate_eq hnever] at h
  split at h
  · cases h
  split at h
  · cases h
    rfl
  split at h
  · cases h
  · next n _ hn =>
    cases h
    exact decide_eq_true (number?_lt hn)
  split at h
  · next left right hcut =>
    have hright : right <:+: trim cs := by
      rw [(Nesting.cutAt_eq_some hcut).1]
      exact ((List.suffix_cons '=' right).trans (List.suffix_append ..)).isInfix
    obtain ⟨p, hp, rfl⟩ := except_map_eq_ok.1 h
    have hliteral := not_contains_mono ((infix_unquote _).trans ((infix_trim right).trans hright)) htrim
    rw [Predicate.readable, hinner _ p hp, String.toList_ofList, hliteral]
    rfl
  · obtain ⟨p, hp, rfl⟩ := except_map_eq_ok.1 h
    exact hinner _ p hp

/-- Nothing is nested in the head of a step that is read. -/
theorem afterAll_head {head rest : List Char} {ps : List Predicate} {S : Step} (htest : Path.test head ps = .ok S)
    (hbracket : '[' ∉ head) (hpart : IsPart {} (head ++ rest)) : Nesting.afterAll {} head = {} := by
  have hchars := name_chars htest hbracket hpart.whole hpart.balanced
  refine Nesting.afterAll_plain fun x hx hmem => hchars x hmem ?_
  simp only [List.mem_cons, List.not_mem_nil, or_false] at hx ⊢
  tauto

/-- A bracket that is closed holds a predicate. -/
theorem brackets_ne_nil {r : List Char} (hclosed : (Nesting.after {} '[').afterAll r = {}) :
    Path.brackets {} [] ('[' :: r) ≠ some [] := by
  intro h
  obtain ⟨l, r', hcut⟩ := cutAt_of_closed hclosed
  obtain ⟨rfl, hl, hend⟩ := Nesting.cutAt_eq_some hcut
  rw [brackets_predicate hl hend] at h
  obtain ⟨_, -, hcons⟩ := Option.map_eq_some_iff.1 h
  cases hcons

/-- The head of a step begins with no blank, and ends with none where no predicate follows. -/
theorem head_readable (hpart : IsPart {} (trim cs)) {head rest : List Char} (hcs : trim cs = head ++ rest)
    (hbracket : '[' ∉ head) (hrest : rest = [] ∨ ∃ r, rest = '[' :: r) {texts : List (List Char)}
    {ps : List Predicate} (htexts : Path.brackets {} [] rest = some texts)
    (hps : texts.mapM (Path.predicate inner source) = .ok ps) {S : Step} (htest : Path.test head ps = .ok S) :
    headReadable head ps = true := by
  have hne := (test_chars htest).1
  have hfirst : head.head?.all (!isBlank ·) = true := by
    obtain ⟨c, tail, rfl⟩ := List.exists_cons_of_ne_nil hne
    have hstart : c ∈ (trim cs).head? := by
      rw [hcs]
      rfl
    simp [isBlank_head_trim hstart]
  rw [headReadable, hfirst, Bool.true_and]
  cases ps with
  | cons p ps => rfl
  | nil =>
    have hnone : texts = [] := by
      cases texts with
      | nil => rfl
      | cons t texts =>
        obtain ⟨_, _, -, -, hcons⟩ := mapM_cons_eq_ok.1 hps
        cases hcons
    subst hnone
    have hrest : rest = [] := by
      refine hrest.resolve_right ?_
      rintro ⟨r, rfl⟩
      rw [hcs] at hpart
      have hclosed := hpart.closed
      rw [Nesting.afterAll_append, afterAll_head htest hbracket hpart] at hclosed
      exact brackets_ne_nil hclosed htexts
    rw [hrest, List.append_nil] at hcs
    cases hlast : head.getLast? with
    | none => rfl
    | some c =>
      have hend : c ∈ (trim cs).getLast? := by
        rw [hcs, hlast]
        rfl
      simp [isBlank_getLast_trim hend]

theorem step_readable (hinner : ReadsReadable inner) (hpart : IsPart {} cs) {S : Step}
    (h : Path.step inner source cs = .ok S) : S.readable = true := by
  obtain ⟨-, rfl⟩ | ⟨-, rfl⟩ | ⟨-, -, hcolons, texts, ps, htexts, hps, htest⟩ := step_eq_ok.1 h
  · rfl
  · rfl
  · obtain ⟨head, rest, hcs, hbracket, hrest⟩ := exists_head (trim cs)
    rw [hcs, dropWhile_head hbracket hrest] at htexts
    rw [hcs, takeWhile_head hbracket hrest] at htest
    have hhead := head_readable hpart.trim hcs hbracket hrest htexts hps htest
    have hpredicates : predicatesReadable ps = true := by
      refine (predicatesReadable_iff ps).2 (forall_of_mapM (fun text ht p hp => ?_) hps)
      have hinfix : text <:+: trim cs := by
        rw [hcs]
        exact (infix_of_brackets htexts text ht).trans (List.suffix_append head rest).isInfix
      exact predicate_readable hinner (not_contains_mono hinfix hcolons) (never_of_brackets (.inl rfl) htexts text ht) hp
    obtain ⟨k, rfl, rfl⟩ := exists_stepHead htest
    rw [StepHead.readable_step, hhead, hpredicates]
    rfl

/-- Whatever is read can be read back. -/
theorem ofChars_readable (depth : Nat) : ReadsReadable (Path.ofChars depth) := by
  induction depth with
  | zero => exact fun _ _ h => nomatch h
  | succ depth ih =>
    intro cs p h
    obtain ⟨-, absolute, texts, sss, houtline, hsteps, rfl⟩ := ofChars_eq_ok.1 h
    rw [Path.readable, stepsReadable_iff]
    intro s hs
    obtain ⟨ss, hss, hs⟩ := List.mem_flatten.1 hs
    refine forall_of_mapM (P := fun ss => ∀ s ∈ ss, s.readable = true) ?_ hsteps ss hss s hs
    intro x hx ss hread
    obtain ⟨s, hstep, rfl⟩ := readStep_eq_ok.1 hread
    have hreadable := step_readable ih (isPart_of_outline houtline x hx) hstep
    split <;> simp [hreadable, Step.readable]

end Reading

end Tabulate
