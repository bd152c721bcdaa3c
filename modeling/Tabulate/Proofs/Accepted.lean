import Tabulate.Proofs.Spelling

/-! What is accepted as a path. A text that is read is spelled by the grammar, as the path it is read as,
exactly if the names in the path are proper and the text is plainly written. -/
namespace Tabulate

open Effects
open Text (trim trimStart)

/-! ### Texts and their cuts -/

section Cuts
variable {n : Nesting} {cs p : List Char} {qs : List (List Char)}

/-- The parts between slashes make up the text, and no three slashes stand in a row. -/
theorem parts_text (h : Path.parts n cs = .ok (p :: qs)) :
    cs = p ++ qs.flatMap ('/' :: ·) ∧ ∀ us vs, qs = us ++ [] :: [] :: vs → vs = [] := by
  induction cs generalizing n p qs with
  | nil =>
    obtain ⟨-, hps⟩ := parts_nil h
    cases hps
    exact ⟨rfl, fun us vs hqs => absurd hqs (by simp)⟩
  | cons c cs ih =>
    obtain ⟨-, rfl, hthree, rs, hrs, hps⟩ | ⟨-, -, rs, hrs, hps⟩ := parts_cons h
    · cases hps
      obtain ⟨-, -, p', qs', rfl, -⟩ := parts_eq_ok hrs
      obtain ⟨htext, hgap⟩ := ih hrs
      refine ⟨congrArg ('/' :: ·) htext, fun us vs hqs => ?_⟩
      cases us with
      | nil =>
        obtain ⟨rfl, rfl⟩ := List.cons.inj hqs
        cases vs with
        | nil => rfl
        | cons v vs =>
          rw [htext] at hthree
          exact absurd hthree (by simp [Text.startsWith, Text.after?])
      | cons u us => exact hgap us vs (List.cons.inj hqs).2
    · obtain ⟨-, -, p', qs', rfl, -⟩ := parts_eq_ok hrs
      cases hps
      obtain ⟨htext, hgap⟩ := ih hrs
      exact ⟨congrArg (c :: ·) htext, hgap⟩

theorem getLast?_tail (h : (p :: qs).getLast? ≠ some []) : qs.getLast? ≠ some [] := by
  cases qs with
  | nil => simp
  | cons q qs => simpa using h

theorem flatMap_slashed : (qs : List (List Char)) → (∀ us vs, qs = us ++ [] :: [] :: vs → vs = []) →
    qs.getLast? ≠ some [] → (Path.stepTexts false qs).flatMap slashed = qs.flatMap ('/' :: ·)
  | [], _, _ => rfl
  | (c :: p) :: qs, hgap, hlast => by
    have htail := flatMap_slashed qs (fun us vs hqs => hgap ((c :: p) :: us) vs (by rw [hqs]; rfl))
      (getLast?_tail hlast)
    rw [Path.stepTexts, List.flatMap_cons, List.flatMap_cons, htail]
    · rfl
    · exact List.cons_ne_nil c p
  | [[]], _, hlast => absurd rfl hlast
  | [] :: [] :: qs, hgap, hlast => by
    obtain rfl := hgap [] qs rfl
    exact absurd rfl hlast
  | [] :: (c :: p) :: qs, hgap, hlast => by
    have htail := flatMap_slashed qs (fun us vs hqs => hgap ([] :: (c :: p) :: us) vs (by rw [hqs]; rfl))
      (getLast?_tail (getLast?_tail hlast))
    rw [Path.stepTexts, Path.stepTexts, List.flatMap_cons, List.flatMap_cons, List.flatMap_cons, htail]
    · rfl
    · exact List.cons_ne_nil c p

/-- The steps of a path with the slashes before them make up its text. -/
theorem outline_text {absolute : Bool} {texts : List (Bool × List Char)} (hne : cs ≠ [])
    (h : Path.outline cs = .ok (absolute, texts)) :
    (absolute = true ∧ cs = if texts.isEmpty then ['/'] else texts.flatMap slashed) ∨
      (absolute = false ∧ ∃ first rest, texts = (false, first) :: rest ∧ cs = first ++ rest.flatMap slashed) := by
  obtain ⟨ps, hps, h⟩ := except_bind_eq_ok.1 h
  obtain ⟨-, -, p, qs, rfl, -⟩ := parts_eq_ok hps
  obtain ⟨htext, hgap⟩ := parts_text hps
  split at h
  · next hcut =>
    cases hcut
    cases h
    exact .inl ⟨rfl, htext⟩
  · next ps _ hcut =>
    cases hcut
    split at h
    · cases h
    · next hlast =>
      cases h
      have hall : cs = (Path.stepTexts false qs).flatMap slashed :=
        htext.trans (flatMap_slashed qs hgap hlast).symm
      refine .inl ⟨rfl, ?_⟩
      rw [if_neg, ← hall]
      intro hempty
      rw [List.isEmpty_iff.1 hempty] at hall
      exact hne hall
  · split at h
    · cases h
    · next hp hlast =>
      cases h
      cases p with
      | nil => exact absurd rfl (hp qs)
      | cons c p =>
        refine .inr ⟨rfl, c :: p, Path.stepTexts false qs, ?_, ?_⟩
        · rw [Path.stepTexts]
          exact List.cons_ne_nil c p
        · rw [flatMap_slashed qs hgap (getLast?_tail hlast)]
          exact htext

end Cuts

/-! ### Plain texts -/

section Plain
variable {b : Bool} {cs bs left right : List Char} {ts : List (List Char)}

theorem afterAll_blank (h : Blank cs) : Nesting.afterAll {} cs = {} := Nesting.quoted_default.afterAll_blank h

/-- Where a text is closed, what follows is plainly written in it if the whole is. -/
theorem plainlyWritten_closed (hclosed : Nesting.afterAll {} cs = {}) (h : plainlyWritten b {} (cs ++ bs) = true) :
    ∃ b', plainlyWritten b' {} bs = true := by
  obtain ⟨b', h⟩ := plainlyWritten_right h
  rw [hclosed] at h
  exact ⟨b', h⟩

/-- What is left of it when it is trimmed is plainly written in it too. -/
theorem exists_plain_margins (h : plainlyWritten b {} (cs ++ bs) = true) :
    ∃ m e b', Blank m ∧ Blank e ∧ cs = m ++ trim cs ++ e ∧
      plainlyWritten b' {} (trim cs ++ (e ++ bs)) = true := by
  obtain ⟨m, e, hm, he, hcs⟩ := exists_margins cs
  rw [hcs, List.append_assoc, List.append_assoc] at h
  obtain ⟨b', h⟩ := plainlyWritten_closed (afterAll_blank hm) h
  exact ⟨m, e, b', hm, he, hcs, h⟩

/-- What outside of literals is asked of each character. -/
theorem plainlyWritten_first {c : Char} (h : plainlyWritten b {} (c :: cs) = true) :
    isPathSign c = true ∧ (c = '=' → comparesLiteral cs = true) ∧ (isQuote c = true → b = true) := by
  rw [plainlyWritten_cons rfl] at h
  simp only [Bool.and_eq_true, Bool.or_eq_true, decide_eq_true_eq, Bool.not_eq_true'] at h
  refine ⟨h.1.1.1, fun hequals => h.1.1.2.resolve_left (not_not_intro hequals), fun hquote => ?_⟩
  exact h.1.2.resolve_left (by simp [hquote])

/-- Past a bracket. -/
theorem plainlyWritten_bracket {c : Char} (hc : c = '[' ∨ c = ']') (h : plainlyWritten b {} (c :: cs) = true) :
    plainlyWritten false {} cs = true := by
  rw [plainlyWritten_cons rfl, Bool.and_eq_true] at h
  have hquote : (Nesting.after {} c).quote = ({} : Nesting).quote := by rcases hc with rfl | rfl <;> rfl
  have hstate : (decide (c = '=') || (b && Text.isBlank c)) = false := by
    rcases hc with rfl | rfl <;> cases b <;> decide
  rw [plainlyWritten_congr hquote, hstate] at h
  exact h.2

/-- At a bracket it does not matter what stands before it. -/
theorem plainlyWritten_fresh (b : Bool) :
    plainlyWritten b {} ('[' :: cs) = plainlyWritten false {} ('[' :: cs) := by
  have hquote : isQuote '[' = false := by decide
  have hblank : Text.isBlank '[' = false := by decide
  rw [plainlyWritten_cons rfl, plainlyWritten_cons rfl, hquote, hblank, Bool.and_false, Bool.and_false]
  rfl

/-- Out of a bracket, behind a text that is closed. -/
theorem plainlyWritten_behind (hclosed : Nesting.afterAll {} cs = {})
    (h : plainlyWritten b {} (cs ++ ']' :: bs) = true) : plainlyWritten false {} bs = true := by
  obtain ⟨b', h⟩ := plainlyWritten_closed hclosed h
  exact plainlyWritten_bracket (.inr rfl) h

/-- A text that is plainly written has no literals between its brackets, so if it is cut into what stands in
brackets, this is all of it. -/
theorem brackets_text (k : Nat) (hk : cs.length ≤ k) (hplain : plainlyWritten false {} (cs ++ bs) = true)
    (hnever : Nesting.never ']' {} cs = true) (hclosed : Nesting.afterAll {} cs = {})
    (h : Path.brackets {} [] cs = some ts) :
    cs = ts.flatMap (fun t => '[' :: (t ++ [']'])) ∧
      ∀ t ∈ ts, Nesting.never ']' {} t = true ∧ Nesting.afterAll {} t = {} := by
  induction k generalizing cs ts with
  | zero =>
    obtain rfl := List.length_eq_zero_iff.1 (Nat.le_zero.1 hk)
    cases h
    exact ⟨rfl, List.forall_mem_nil _⟩
  | succ k ih =>
    cases cs with
    | nil =>
      cases h
      exact ⟨rfl, List.forall_mem_nil _⟩
    | cons c cs =>
      have hquote : ¬(c = '\'' ∨ c = '"') := by
        have hopened := (plainlyWritten_first hplain).2.2
        simpa [isQuote] using hopened
      have hopen : c = '[' := by
        by_contra hne
        by_cases hclose : c = ']'
        · subst hclose
          exact absurd hnever (by simp [Nesting.never, Nesting.outside])
        · rw [brackets_other hquote hne hclose, if_pos rfl] at h
          cases h
      subst hopen
      obtain ⟨l, r, hcut⟩ := cutAt_of_closed hclosed
      obtain ⟨rfl, hl, hend⟩ := Nesting.cutAt_eq_some hcut
      rw [brackets_predicate hl hend] at h
      obtain ⟨us, hus, rfl⟩ := Option.map_eq_some_iff.1 h
      rw [Nesting.never, Bool.and_eq_true] at hnever
      obtain ⟨hnever, hafter⟩ := Nesting.after_predicate hl hend hnever.2
      have hrest : plainlyWritten false {} (r ++ bs) = true := by
        rw [List.cons_append] at hplain
        have hinside := plainlyWritten_bracket (.inl rfl) hplain
        rw [List.append_assoc] at hinside
        exact plainlyWritten_behind hend hinside
      have hshort : r.length ≤ k := by
        simp only [List.length_cons, List.length_append] at hk
        omega
      obtain ⟨hr, hall⟩ := ih hshort hrest hnever (hafter.symm.trans hclosed) hus
      refine ⟨?_, List.forall_mem_cons.2 ⟨⟨hl, hend⟩, hall⟩⟩
      rw [List.flatMap_cons, ← hr]
      simp

end Plain

/-! ### Comparisons -/

section Comparisons
variable {bs right : List Char}

/-- A text in which nothing is closed, and behind which a bracket comes first, is blank. -/
theorem blank_of_close (hnever : Nesting.never ']' {} right = true)
    (h : (trimStart (right ++ bs)).head? = some ']') : Blank right := by
  induction right with
  | nil => exact blank_nil
  | cons c cs ih =>
    by_cases hc : Text.isBlank c = true
    · have hsame : Nesting.after {} c = {} := Nesting.quoted_default.after_blank hc
      rw [Nesting.never, hsame, Bool.and_eq_true] at hnever
      rw [List.cons_append, trimStart, List.dropWhile_cons_of_pos hc] at h
      exact List.forall_mem_cons.2 ⟨hc, ih hnever.2 h⟩
    · rw [List.cons_append, trimStart, List.dropWhile_cons_of_neg hc, List.head?_cons] at h
      rw [Option.some.inj h] at hnever
      exact absurd hnever (by simp [Nesting.never, Nesting.outside])

/-- A literal that is closed has its quote behind it. -/
theorem exists_quoted {q : Char} {cs : List Char} (hq : q = '\'' ∨ q = '"')
    (hnever : Nesting.never ']' {} (q :: cs) = true) (hclosed : Nesting.afterAll {} (q :: cs) = {}) :
    ∃ (l : Literal) (rest : List Char), l.quote = q ∧ cs = l.chars ++ q :: rest ∧
      Nesting.never ']' {} rest = true := by
  have hopen := Nesting.after_opening hq
  rw [Nesting.afterAll_cons, hopen] at hclosed
  have hmem : q ∈ cs := by
    by_contra hfree
    rw [Nesting.afterAll_quoted hfree] at hclosed
    exact Option.some_ne_none _ (congrArg Nesting.quote hclosed)
  obtain ⟨chars, rest, rfl, hfree⟩ := List.eq_append_cons_of_mem hmem
  refine ⟨⟨q, chars, hq, hfree⟩, rest, rfl, rfl, ?_⟩
  rw [Nesting.never, hopen, Bool.and_eq_true] at hnever
  have hright := Nesting.never_right hnever.2
  rw [Nesting.afterAll_quoted hfree, Nesting.never, Nesting.after_closing, Bool.and_eq_true] at hright
  exact hright.2

theorem comparesLiteral_blank {b : List Char} (hb : Blank b) (cs : List Char) :
    comparesLiteral (b ++ cs) = comparesLiteral cs := by
  have hstart : trimStart (b ++ cs) = trimStart cs := List.dropWhile_append_of_pos hb
  rw [comparesLiteral, comparesLiteral, hstart]

theorem comparesLiteral_cons {q : Char} {cs : List Char} (hq : Text.isBlank q = false)
    (h : comparesLiteral (q :: cs) = true) : (q = '\'' ∨ q = '"') ∧
      ∃ behind, cs.dropWhile (· != q) = q :: behind ∧ (trimStart behind).head? = some ']' := by
  have hstart : trimStart (q :: cs) = q :: cs := List.dropWhile_cons_of_neg (by simp [hq])
  rw [comparesLiteral, hstart] at h
  dsimp only at h
  rw [Bool.and_eq_true, Bool.or_eq_true, decide_eq_true_eq, decide_eq_true_eq] at h
  refine ⟨h.1, ?_⟩
  cases hdrop : cs.dropWhile (· != q) with
  | nil =>
    rw [hdrop] at h
    cases h.2
  | cons c behind =>
    have hhead := List.head?_dropWhile_not (· != q) cs
    rw [hdrop] at h hhead
    have hc : c = q := by simpa using hhead
    exact ⟨behind, by rw [hc], of_decide_eq_true h.2⟩

/-- Behind an equals sign that is plainly written stands one literal. -/
theorem exists_literal (hnever : Nesting.never ']' {} right = true) (hclosed : Nesting.afterAll {} right = {})
    (hbs : (trimStart bs).head? = some ']') (h : comparesLiteral (right ++ bs) = true) :
    ∃ l : Literal, Around (· = l.text) right ∧ Path.unquote (trim right) = l.chars := by
  obtain ⟨b, hright, hb⟩ := eq_append_trimStart right
  have hfirst := List.head?_dropWhile_not Text.isBlank right
  generalize hcore : trimStart right = core at hright
  rw [show right.dropWhile Text.isBlank = core from hcore] at hfirst
  subst hright
  rw [List.append_assoc, comparesLiteral_blank hb] at h
  have hopened := Nesting.never_right hnever
  rw [afterAll_blank hb] at hopened
  rw [Nesting.afterAll_append, afterAll_blank hb] at hclosed
  cases core with
  | nil =>
    rw [List.nil_append, comparesLiteral] at h
    cases hstart : trimStart bs with
    | nil =>
      rw [hstart] at hbs
      cases hbs
    | cons c rest =>
      rw [hstart] at hbs h
      cases hbs
      simp at h
  | cons q cs =>
    have hblank : Text.isBlank q = false := by simpa using hfirst
    rw [List.cons_append] at h
    obtain ⟨hq, behind, hdrop, hbehind⟩ := comparesLiteral_cons hblank h
    obtain ⟨l, rest, rfl, rfl, hrest⟩ := exists_quoted hq hopened hclosed
    rw [List.append_assoc, List.cons_append, l.dropWhile_chars] at hdrop
    rw [← (List.cons.inj hdrop).2] at hbehind
    have he := blank_of_close hrest hbehind
    have htext : b ++ l.quote :: (l.chars ++ l.quote :: rest) = b ++ l.text ++ rest := by simp [Literal.text]
    rw [htext, trim_margins hb l.tight he, unquote_text]
    exact ⟨l, ⟨b, l.text, rest, rfl, hb, rfl, he⟩, rfl⟩

end Comparisons

/-! ### What is read -/

section Reading
variable {inner : List Char → Except PathError Path} {source cs bs : List Char} {b : Bool}

/-- What is read with proper names from a text that is plainly written is spelled by it. -/
def ReadsSpelled (inner : List Char → Except PathError Path) : Prop :=
  ∀ b cs bs p, inner cs = .ok p → p.IsProper → plainlyWritten b {} (cs ++ bs) = true →
    ∃ t : PathTree, t.Spells cs ∧ t.path = p

theorem ReadsSpelled.trimmed (hinner : ReadsSpelled inner) {p : Path} (h : inner (trim cs) = .ok p)
    (hproper : p.IsProper) (hplain : plainlyWritten b {} (cs ++ bs) = true) :
    ∃ t : PathTree, t.Spells cs ∧ t.path = p := by
  obtain ⟨m, e, b', hm, he, hcs, htrim⟩ := exists_plain_margins hplain
  obtain ⟨t, ht, rfl⟩ := hinner b' _ _ p h hproper htrim
  rw [hcs]
  exact ⟨t, t.spells_margins ht hm he, rfl⟩

/-- Without a plus sign a number is its digits. -/
theorem digits_of_number? {n : Nat} (h : Path.number? cs = some n)
    (hplain : plainlyWritten b {} (cs ++ bs) = true) :
    cs ≠ [] ∧ cs.all Char.isDigit = true ∧ digitsValue cs = n := by
  have hsign : numerals cs = cs := by
    unfold numerals
    split
    · exact absurd (plainlyWritten_first hplain).1 (by decide)
    · rfl
  rw [number?_eq, hsign] at h
  split at h
  · cases h
  · next hdigits =>
    split at h
    · cases h
      simpa using hdigits
    · cases h

theorem comparison_spelled (hinner : ReadsSpelled inner) {left right : List Char}
    (hend : Nesting.afterAll {} left = {}) (hnever : Nesting.never ']' {} (left ++ '=' :: right) = true)
    (hclosed : Nesting.afterAll {} (left ++ '=' :: right) = {}) (hbs : (trimStart bs).head? = some ']')
    (hplain : plainlyWritten b {} (left ++ '=' :: right ++ bs) = true) {p : Path}
    (hp : inner (trim left) = .ok p) (hproper : p.IsProper) :
    ∃ (t : PathTree) (l : Literal), t.Spells left ∧ t.path = p ∧ Around (· = l.text) right ∧
      Path.unquote (trim right) = l.chars := by
  have hequals : Nesting.after {} '=' = {} := rfl
  rw [List.append_assoc, List.cons_append] at hplain
  have hcompared : comparesLiteral (right ++ bs) = true := by
    obtain ⟨b', hright⟩ := plainlyWritten_closed hend hplain
    exact (plainlyWritten_first hright).2.1 rfl
  obtain ⟨t, ht, rfl⟩ := hinner.trimmed hp hproper hplain
  have hnever := Nesting.never_right hnever
  rw [hend, Nesting.never, hequals, Bool.and_eq_true] at hnever
  rw [Nesting.afterAll_append, hend, Nesting.afterAll_cons, hequals] at hclosed
  obtain ⟨l, hl, hliteral⟩ := exists_literal hnever.2 hclosed hbs hcompared
  exact ⟨t, l, ht, rfl, hl, hliteral⟩

theorem predicate_spelled (hinner : ReadsSpelled inner) (hnever : Nesting.never ']' {} cs = true)
    (hclosed : Nesting.afterAll {} cs = {}) (hplain : plainlyWritten b {} (cs ++ ']' :: bs) = true) {q : Predicate}
    (h : Path.predicate inner source cs = .ok q) (hproper : q.IsProper) :
    ∃ p : PredicateTree, p.Spells cs ∧ p.predicate = q := by
  obtain ⟨m, e, b', hm, he, hcs, htrim⟩ := exists_plain_margins hplain
  have hbehind : (trimStart (e ++ ']' :: bs)).head? = some ']' := by
    rw [trimStart_blank_append he (by decide)]
    rfl
  rw [predicate_eq hnever] at h
  split at h
  · cases h
  split at h
  · next hlast =>
    cases h
    exact ⟨.last, ⟨m, trim cs, e, hcs, hm, hlast, he⟩, rfl⟩
  split at h
  · cases h
  · next n hpositive hn =>
    cases h
    obtain ⟨hne, hdigits, hvalue⟩ := digits_of_number? hn htrim
    exact ⟨.position n (Nat.pos_of_ne_zero hpositive), ⟨m, trim cs, e, hcs, hm, ⟨hne, hdigits, hvalue⟩, he⟩, rfl⟩
  split at h
  · next left right hcut =>
    obtain ⟨p, hp, rfl⟩ := except_map_eq_ok.1 h
    obtain ⟨hexpr, hleft, hend⟩ := Nesting.cutAt_eq_some hcut
    have hnever := Nesting.never_trim hnever
    rw [← Nesting.afterAll_trim Nesting.quoted_default] at hclosed
    rw [hexpr] at hcs htrim hnever hclosed
    obtain ⟨t, l, ht, rfl, hl, hliteral⟩ := comparison_spelled hinner hend hnever hclosed hbehind htrim hp hproper
    refine ⟨.equals t l, ⟨m ++ left, right ++ e, ?_, ?_, ?_⟩, ?_⟩
    · rw [hcs]
      simp
    · simpa using t.spells_margins ht hm blank_nil
    · exact hl.margins blank_nil he
    · rw [PredicateTree.predicate, hliteral]
  · obtain ⟨p, hp, rfl⟩ := except_map_eq_ok.1 h
    obtain ⟨t, ht, rfl⟩ := hinner.trimmed hp hproper hplain
    exact ⟨.holds t, ht, rfl⟩

theorem predicates_spelled (hinner : ReadsSpelled inner) {ts : List (List Char)} {ps : List Predicate}
    (hts : ∀ t ∈ ts, Nesting.never ']' {} t = true ∧ Nesting.afterAll {} t = {})
    (hplain : plainlyWritten b {} (ts.flatMap (fun t => '[' :: (t ++ [']'])) ++ bs) = true)
    (h : ts.mapM (Path.predicate inner source) = .ok ps) (hproper : PredicatesProper ps) :
    ∃ qs : List PredicateTree, predicatesSpell qs (ts.flatMap fun t => '[' :: (t ++ [']'])) ∧
      treePredicates qs = ps := by
  induction ts generalizing b ps with
  | nil =>
    cases h
    exact ⟨[], rfl, rfl⟩
  | cons t ts ih =>
    obtain ⟨p, ps, hp, hps, rfl⟩ := mapM_cons_eq_ok.1 h
    obtain ⟨⟨hnever, hclosed⟩, hts⟩ := List.forall_mem_cons.1 hts
    have hsplit : (t :: ts).flatMap (fun t => '[' :: (t ++ [']'])) =
        '[' :: (t ++ ']' :: ts.flatMap fun t => '[' :: (t ++ [']'])) := by simp
    rw [hsplit, List.cons_append] at hplain
    have hinside := plainlyWritten_bracket (.inl rfl) hplain
    rw [List.append_assoc, List.cons_append] at hinside
    obtain ⟨q, hq, hqp⟩ := predicate_spelled hinner hnever hclosed hinside hp hproper.1
    obtain ⟨qs, hqs, hqps⟩ := ih hts (plainlyWritten_behind hclosed hinside) hps hproper.2
    refine ⟨q :: qs, ?_, ?_⟩
    · rw [hsplit]
      exact ⟨t, _, rfl, hq, hqs⟩
    · rw [treePredicates, hqp, hqps]

theorem step_spelled (hinner : ReadsSpelled inner) (hpart : IsPart {} cs)
    (hplain : plainlyWritten b {} (cs ++ bs) = true) {S : Step} (h : Path.step inner source cs = .ok S)
    (hproper : S.IsProper) : ∃ s : StepTree, s.Spells cs ∧ s.step = S := by
  obtain ⟨m, e, b', hm, he, hcs, hplain⟩ := exists_plain_margins hplain
  obtain ⟨hself, rfl⟩ | ⟨hparent, rfl⟩ | ⟨-, -, -, ts, ps, hts, hps, htest⟩ := step_eq_ok.1 h
  · exact ⟨.self, ⟨m, trim cs, e, hcs, hm, hself, he⟩, rfl⟩
  · exact ⟨.parent, ⟨m, trim cs, e, hcs, hm, hparent, he⟩, rfl⟩
  · obtain ⟨head, rest, htrim, hbracket, hrest⟩ := exists_head (trim cs)
    have hpart := hpart.trim
    rw [htrim] at hpart
    rw [htrim, dropWhile_head hbracket hrest] at hts
    rw [htrim, takeWhile_head hbracket hrest] at htest
    obtain ⟨k, rfl, rfl⟩ := exists_stepHead htest
    rw [StepHead.isProper_step] at hproper
    -- nothing is nested in the head, so the predicates stand as they would alone
    have hhead : Nesting.afterAll {} k.text = {} := (StepHead.sealed hproper.1).closed
    have hnever := Nesting.never_right hpart.balanced
    have hclosed := hpart.closed
    rw [hhead] at hnever
    rw [Nesting.afterAll_append, hhead] at hclosed
    rw [htrim, List.append_assoc] at hplain
    obtain ⟨b₂, hplain⟩ := plainlyWritten_closed hhead hplain
    obtain ⟨bs', hfresh⟩ : ∃ bs', plainlyWritten false {} (rest ++ bs') = true := by
      obtain rfl | ⟨r, rfl⟩ := hrest
      · exact ⟨[], rfl⟩
      · exact ⟨e ++ bs, (plainlyWritten_fresh b₂).symm.trans hplain⟩
    obtain ⟨hbrackets, hall⟩ := brackets_text rest.length (Nat.le_refl _) hfresh hnever hclosed hts
    rw [hbrackets] at hfresh
    obtain ⟨qs, hqs, rfl⟩ := predicates_spelled hinner hall hfresh hps hproper.2
    rw [← hbrackets] at hqs
    exact ⟨.test k hproper.1 qs, ⟨m, trim cs, e, hcs, hm, ⟨rest, htrim, hqs⟩, he⟩, rfl⟩

theorem links_spelled (hinner : ReadsSpelled inner) {texts : List (Bool × List Char)} {sss : List (List Step)}
    (hparts : ∀ x ∈ texts, IsPart {} x.2) (hplain : plainlyWritten b {} (texts.flatMap slashed ++ bs) = true)
    (h : texts.mapM (readStep inner source) = .ok sss) (hproper : StepsProper sss.flatten) :
    ∃ links, linksSpell links (texts.flatMap slashed) ∧ linkSteps links = sss.flatten := by
  induction texts generalizing b sss with
  | nil =>
    cases h
    exact ⟨[], rfl, rfl⟩
  | cons x texts ih =>
    obtain ⟨doubled, text⟩ := x
    obtain ⟨hpart, hparts⟩ := List.forall_mem_cons.1 hparts
    obtain ⟨ss, sss, hss, hsss, rfl⟩ := mapM_cons_eq_ok.1 h
    obtain ⟨S, hS, rfl⟩ := readStep_eq_ok.1 hss
    have hslashes : Nesting.afterAll {} (if doubled then ['/', '/'] else ['/']) = {} := by cases doubled <;> rfl
    rw [List.flatMap_cons, slashed, List.append_assoc, List.append_assoc] at hplain
    obtain ⟨b₁, hplain⟩ := plainlyWritten_closed hslashes hplain
    obtain ⟨b₂, hrest⟩ := plainlyWritten_closed hpart.closed hplain
    have hsteps : S.IsProper ∧ StepsProper sss.flatten := by
      rw [List.flatten_cons] at hproper
      cases doubled with
      | false => exact hproper
      | true => exact hproper.2
    obtain ⟨s, hs, rfl⟩ := step_spelled hinner hpart hplain hS hsteps.1
    obtain ⟨links, hlinks, hflat⟩ := ih hparts hrest hsss hsteps.2
    refine ⟨(doubled, s) :: links, ⟨text, texts.flatMap slashed, rfl, hs, hlinks⟩, ?_⟩
    rw [linkSteps, List.flatten_cons, hflat]

/-- By induction on how deep the predicates are. -/
theorem ofChars_spelled (depth : Nat) : ReadsSpelled (Path.ofChars depth) := by
  induction depth with
  | zero => exact fun _ _ _ _ h => nomatch h
  | succ depth ih =>
    intro b cs bs p h hproper hplain
    obtain ⟨hne, absolute, texts, sss, houtline, hsteps, rfl⟩ := ofChars_eq_ok.1 h
    obtain ⟨m, e, b₁, hm, he, hcs, hplain⟩ := exists_plain_margins hplain
    have hparts := isPart_of_outline houtline
    obtain ⟨rfl, htext⟩ | ⟨rfl, first, rest, rfl, htext⟩ := outline_text hne houtline
    · cases texts with
      | nil =>
        cases hsteps
        exact ⟨.absolute [], ⟨m, trim cs, e, hcs, hm, htext, he⟩, rfl⟩
      | cons x texts =>
        rw [if_neg (by simp)] at htext
        rw [htext] at hplain hcs
        obtain ⟨links, hlinks, hflat⟩ := links_spelled ih hparts hplain hsteps hproper
        refine ⟨.absolute links, ⟨m, _, e, hcs, hm, ?_, he⟩, by rw [PathTree.path, hflat]⟩
        cases links with
        | nil =>
          have hnil : (x :: texts).flatMap slashed = [] := hlinks
          exact absurd (htext.trans hnil) hne
        | cons y links => exact hlinks
    · obtain ⟨ss, sss, hss, hsss, rfl⟩ := mapM_cons_eq_ok.1 hsteps
      obtain ⟨S, hS, rfl⟩ := readStep_eq_ok.1 hss
      obtain ⟨hpart, hparts⟩ := List.forall_mem_cons.1 hparts
      rw [htext, List.append_assoc] at hplain
      rw [htext] at hcs
      obtain ⟨b₂, hrest⟩ := plainlyWritten_closed hpart.closed hplain
      obtain ⟨s, hs, rfl⟩ := step_spelled ih hpart hplain hS hproper.1
      obtain ⟨links, hlinks, hflat⟩ := links_spelled ih hparts hrest hsss hproper.2
      refine ⟨.relative s links, ⟨m, _, e, hcs, hm, ⟨first, _, rfl, hs, hlinks⟩, he⟩, ?_⟩
      rw [PathTree.path, hflat]
      rfl

end Reading

/-- A text that is read is spelled by the grammar, as the path it is read as, exactly if the names in the path
are proper and the text is plainly written. -/
theorem spelled_iff {s : String} {w : WrittenPath} (h : Path.read s = .ok w) :
    (∃ t : PathTree, t.Spells s.toList ∧ t.path = w.path) ↔
      w.path.IsProper ∧ plainlyWritten false {} s.toList = true := by
  constructor
  · intro hspelled
    obtain ⟨t, ht, hpath⟩ := hspelled
    have hpassed := t.passed s.toList ht []
    rw [List.append_nil] at hpassed
    rw [← hpath]
    exact ⟨t.isProper, hpassed⟩
  · intro hwritten
    have hplain := hwritten.2
    rw [← List.append_nil s.toList] at hplain
    exact ofChars_spelled _ false _ _ _ (read_eq_ok.1 h).1 hwritten.1 hplain

/-- Blanks, an attribute, a comparison and a position. -/
theorem spelled_iff_track :
    let p : Path := .mk false [.child (.name (.named none "disc")) [.position 7], .descendants,
      .attr (.named (some "dc") "title") [.equals (.mk false [.parent]) "x/y"]]
    Path.read " disc[ 07 ] // @dc:title[ .. = 'x/y' ]" = .ok ⟨" disc[ 07 ] // @dc:title[ .. = 'x/y' ]", p⟩ ∧
      ∃ t : PathTree, t.Spells " disc[ 07 ] // @dc:title[ .. = 'x/y' ]".toList ∧ t.path = p := by
  intro p
  have hread : Path.read " disc[ 07 ] // @dc:title[ .. = 'x/y' ]" =
      .ok ⟨" disc[ 07 ] // @dc:title[ .. = 'x/y' ]", p⟩ := by rfl
  have hdisc : (StepHead.child (.name (.named none "disc"))).IsProper := ⟨by simp, by decide⟩
  have htitle : (StepHead.attr (.named (some "dc") "title")).IsProper := ⟨by simp; decide, by decide⟩
  have hproper : p.IsProper :=
    ⟨⟨hdisc, trivial, trivial⟩, trivial, ⟨htitle, ⟨trivial, trivial⟩, trivial⟩, trivial⟩
  exact ⟨hread, (spelled_iff hread).2 ⟨hproper, by decide⟩⟩

/-- A union is a name, and what is compared with goes to the end of the predicate. No path is spelled. -/
theorem union_taken_for_name :
    Path.read "a|b" = .ok ⟨"a|b", .mk false [.child (.name (.named none "a|b")) []]⟩ ∧
      Path.read "a[b='x' or c='y']" = .ok ⟨"a[b='x' or c='y']", .mk false [.child (.name (.named none "a"))
        [.equals (.mk false [.child (.name (.named none "b")) []]) "x' or c='y"]]⟩ ∧
      ∀ t : PathTree, ¬t.Spells "a|b".toList ∧ ¬t.Spells "a[b='x' or c='y']".toList := by
  refine ⟨by rfl, by rfl, fun t => ⟨fun h => ?_, fun h => ?_⟩⟩
  · exact absurd (t.passed _ h []) (by decide)
  · exact absurd (t.passed _ h []) (by decide)

end Tabulate
