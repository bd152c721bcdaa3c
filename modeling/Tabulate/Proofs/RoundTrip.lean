import Tabulate.Proofs.Written

/-! Reading back what the grammar writes. The text of a path tree falls into the texts of its steps, each
of those into a head and the texts of its predicates, and what is read from them is the path that the tree
stands for. -/
namespace Tabulate

open Effects

/-! ### Cutting -/

section Parts
variable {n : Nesting} {p t cs : List Char} {absolute : Bool} {texts : List (Bool × List Char)}

theorem Sealed.isPart (h : Sealed stepCuts cs) : IsPart {} cs :=
  ⟨h.never '/' (by decide), h.never ']' (by decide), h.closed⟩

theorem parts_of_isPart (h : IsPart n p) : Path.parts n p = .ok [p] := by
  induction p generalizing n with
  | nil =>
    have hn : n = {} := h.closed
    subst hn
    rfl
  | cons c p ih =>
    obtain ⟨hwhole, hbalanced, hclosed⟩ := h
    rw [Nesting.never, Bool.and_eq_true, Bool.not_eq_true'] at hwhole hbalanced
    rw [parts_of_inside hwhole.1 hbalanced.1, ih ⟨hwhole.2, hbalanced.2, hclosed⟩]
    rfl

theorem parts_append_slash (h : IsPart n p) (hslash : Text.startsWith ['/', '/'] cs = false) :
    Path.parts n (p ++ '/' :: cs) = (Path.parts {} cs).map (p :: ·) := by
  induction p generalizing n with
  | nil =>
    have hn : n = {} := h.closed
    subst hn
    rw [List.nil_append, Path.parts, if_pos (by decide), if_neg (by simp [hslash])]
  | cons c p ih =>
    obtain ⟨hwhole, hbalanced, hclosed⟩ := h
    rw [Nesting.never, Bool.and_eq_true, Bool.not_eq_true'] at hwhole hbalanced
    rw [List.cons_append, parts_of_inside hwhole.1 hbalanced.1, ih ⟨hwhole.2, hbalanced.2, hclosed⟩]
    cases Path.parts {} cs <;> rfl

theorem StepTree.text_ne_nil (s : StepTree) : s.text ≠ [] := by
  cases s with
  | self => exact List.cons_ne_nil _ _
  | parent => exact List.cons_ne_nil _ _
  | test head proper ps =>
    rw [StepTree.text]
    simp [StepHead.text_ne_nil proper]

/-- A step with the slashes before it. -/
def slashed (x : Bool × List Char) : List Char := (if x.1 then ['/', '/'] else ['/']) ++ x.2

/-- A part does not begin with a slash. -/
theorem IsPart.not_startsWith_slash (h : IsPart {} t) (hne : t ≠ []) (cs : List Char) :
    Text.startsWith ['/', '/'] (t ++ cs) = false ∧ Text.startsWith ['/', '/'] ('/' :: (t ++ cs)) = false := by
  have hwhole := h.whole
  obtain ⟨c, rest, hc⟩ := List.exists_cons_of_ne_nil hne
  rw [hc, Nesting.never, Bool.and_eq_true] at hwhole
  have hslash : '/' ≠ c := by
    rintro rfl
    exact absurd hwhole.1 (by decide)
  simp [hc, Text.startsWith, Text.after?, hslash]

def slashParts (texts : List (Bool × List Char)) : List (List Char) :=
  texts.flatMap fun x => if x.1 then [[], x.2] else [x.2]

theorem parts_slashed (hp : IsPart {} p) (h : ∀ x ∈ texts, IsPart {} x.2 ∧ x.2 ≠ []) :
    Path.parts {} (p ++ texts.flatMap slashed) = .ok (p :: slashParts texts) := by
  induction texts generalizing p with
  | nil =>
    rw [List.flatMap_nil, List.append_nil]
    exact parts_of_isPart hp
  | cons x texts ih =>
    obtain ⟨doubled, t⟩ := x
    obtain ⟨⟨ht, hne⟩, hrest⟩ := List.forall_mem_cons.1 h
    obtain ⟨hone, htwo⟩ := ht.not_startsWith_slash hne (texts.flatMap slashed)
    cases doubled with
    | false =>
      have hsplit := parts_append_slash hp hone
      rw [ih ht hrest] at hsplit
      simpa [slashed, slashParts, Except.map] using hsplit
    | true =>
      have hsplit := parts_append_slash hp htwo
      have hslash := parts_append_slash isPart_nil hone
      rw [List.nil_append] at hslash
      rw [hslash, ih ht hrest] at hsplit
      simpa [slashed, slashParts, Except.map] using hsplit

theorem stepTexts_slashParts (h : ∀ x ∈ texts, x.2 ≠ []) : Path.stepTexts false (slashParts texts) = texts := by
  induction texts with
  | nil => rfl
  | cons x texts ih =>
    obtain ⟨doubled, t⟩ := x
    obtain ⟨hne, hrest⟩ := List.forall_mem_cons.1 h
    obtain ⟨c, cs, rfl⟩ := List.exists_cons_of_ne_nil hne
    cases doubled <;> simpa [slashParts, Path.stepTexts] using ih hrest

theorem getLast?_slashParts (h : ∀ x ∈ texts, x.2 ≠ []) : (slashParts texts).getLast? ≠ some [] := by
  induction texts using List.reverseRecOn with
  | nil => exact nofun
  | append_singleton texts x _ =>
    have hne := h x (by simp)
    rw [slashParts, List.flatMap_append, List.flatMap_singleton]
    split <;> simpa using hne

theorem outline_absolute {ps : List (List Char)} (h : Path.parts {} cs = .ok ([] :: ps))
    (hlast : ps.getLast? ≠ some []) : Path.outline cs = .ok (true, Path.stepTexts false ps) := by
  rw [Path.outline, h]
  cases ps with
  | nil => rfl
  | cons p ps =>
    cases p with
    | cons c p => exact if_neg hlast
    | nil =>
      cases ps with
      | nil => exact absurd rfl hlast
      | cons q ps => exact if_neg hlast

theorem outline_of_first {ps : List (List Char)} (h : Path.parts {} cs = .ok (p :: ps)) (hp : p ≠ [])
    (hlast : (p :: ps).getLast? ≠ some []) : Path.outline cs = .ok (false, Path.stepTexts false (p :: ps)) := by
  obtain ⟨c, p, rfl⟩ := List.exists_cons_of_ne_nil hp
  rw [Path.outline, h]
  exact if_neg hlast

structure IsOutline (cs : List Char) (absolute : Bool) (texts : List (Bool × List Char)) : Prop where
  nonempty : texts ≠ []
  part : ∀ x ∈ texts, IsPart {} x.2 ∧ x.2 ≠ []
  first : absolute = false → ∀ x ∈ texts.head?, x.1 = false
  whole : (if absolute then cs else '/' :: cs) = texts.flatMap slashed

theorem IsOutline.outline_eq (h : IsOutline cs absolute texts) : Path.outline cs = .ok (absolute, texts) := by
  obtain ⟨hne, hpart, hfirst, hwhole⟩ := h
  have htexts : ∀ x ∈ texts, x.2 ≠ [] := fun x hx => (hpart x hx).2
  cases absolute with
  | true =>
    obtain rfl : cs = texts.flatMap slashed := hwhole
    have hparts := parts_slashed isPart_nil hpart
    rw [List.nil_append] at hparts
    rw [outline_absolute hparts (getLast?_slashParts htexts), stepTexts_slashParts htexts]
  | false =>
    obtain ⟨⟨doubled, t⟩, rest, rfl⟩ := List.exists_cons_of_ne_nil hne
    obtain rfl : doubled = false := hfirst rfl _ rfl
    obtain ⟨⟨ht, htne⟩, hrest⟩ := List.forall_mem_cons.1 hpart
    obtain rfl : cs = t ++ rest.flatMap slashed := (List.cons.inj hwhole).2
    have hall : t :: slashParts rest = slashParts ((false, t) :: rest) := rfl
    rw [outline_of_first (parts_slashed ht hrest) htne, hall, stepTexts_slashParts htexts]
    rw [hall]
    exact getLast?_slashParts htexts

theorem linksText_eq (links : List (Bool × StepTree)) :
    linksText links = (links.map fun x => (x.1, x.2.text)).flatMap slashed := by
  induction links with
  | nil => rfl
  | cons x links ih => rw [linksText, ih, List.map_cons, List.flatMap_cons, slashed]

end Parts

def PathTree.outline : PathTree → Bool × List (Bool × StepTree)
  | .absolute links => (true, links)
  | .relative first links => (false, (false, first) :: links)

theorem PathTree.path_eq (t : PathTree) : t.path = .mk t.outline.1 (linkSteps t.outline.2) := by
  cases t <;> rfl

/-- A path is cut into its steps. -/
theorem PathTree.outline_text (t : PathTree) :
    Path.outline t.text = .ok (t.outline.1, t.outline.2.map fun x => (x.1, x.2.text)) := by
  have hparts (links : List (Bool × StepTree)) :
      ∀ x ∈ links.map fun x => (x.1, x.2.text), IsPart {} x.2 ∧ x.2 ≠ [] :=
    List.forall_mem_map.2 fun x _ => ⟨x.2.sealed.isPart, x.2.text_ne_nil⟩
  cases t with
  | absolute links =>
    rw [PathTree.text]
    cases links with
    | nil => rfl
    | cons x links =>
      rw [if_neg (by simp)]
      exact IsOutline.outline_eq ⟨by simp [PathTree.outline], hparts _, nofun, linksText_eq _⟩
  | relative first links =>
    rw [PathTree.text, linksText_eq]
    refine IsOutline.outline_eq ⟨by simp [PathTree.outline], hparts _, fun _ x hx => ?_, rfl⟩
    cases hx
    rfl

/-! ### Reading -/

section Reading
variable {depth : Nat} {source : List Char}

def ReadsTrees (depth : Nat) : Prop :=
  ∀ t : PathTree, t.text.length < depth → t.path.readable = true → Path.ofChars depth t.text = .ok t.path

theorem ofChars_last (depth : Nat) (p : Path) : Path.ofChars depth "last()".toList ≠ .ok p := by
  cases depth with
  | zero => exact nofun
  | succ depth =>
    have hread : Path.ofChars (depth + 1) "last()".toList = .error ⟨"last()", .unsupported "last()"⟩ := rfl
    rw [hread]
    exact nofun

theorem StepTree.begins (s : StepTree) : ∀ c ∈ s.text.head?, c ≠ '+' ∧ c.isDigit = false := by
  intro c hc
  cases s with
  | self =>
    cases hc
    decide
  | parent =>
    cases hc
    decide
  | test head proper ps =>
    rw [StepTree.text, List.head?_append_of_ne_nil _ (StepHead.text_ne_nil proper)] at hc
    exact (StepHead.begins proper c hc).2

theorem PathTree.begins (t : PathTree) : ∀ c ∈ t.text.head?, c ≠ '+' ∧ c.isDigit = false := by
  intro c hc
  cases t with
  | absolute links =>
    have hslash : c = '/' := by
      rw [PathTree.text] at hc
      cases links with
      | nil => exact (Option.some.inj hc).symm
      | cons x links =>
        rw [if_neg (by simp), linksText] at hc
        split at hc <;> exact (Option.some.inj hc).symm
    rw [hslash]
    decide
  | relative first links =>
    rw [PathTree.text, List.head?_append_of_ne_nil _ first.text_ne_nil] at hc
    exact first.begins c hc

/-- The path in a predicate is no position. -/
theorem PathTree.holdsPath (hinner : ReadsTrees depth) (t : PathTree) (hlen : t.text.length < depth)
    (h : t.path.readable = true) : HoldsPath t.text where
  nonempty := (t.tight h).nonempty
  notLast he := by
    have hread := hinner t hlen h
    rw [he] at hread
    exact ofChars_last depth t.path hread
  notNumber := by
    obtain ⟨c, cs, hc⟩ := List.exists_cons_of_ne_nil (t.tight h).nonempty
    obtain ⟨hplus, hdigit⟩ := t.begins c (by rw [hc]; rfl)
    exact number?_eq_none (by simp [hc]) hplus hdigit

theorem unquote_text (l : Literal) : Path.unquote l.text = l.chars := by
  obtain ⟨q, chars, hq, hfree⟩ := l
  rw [Literal.text, unquote_cons, if_pos, List.dropLast_concat]
  rcases hq with rfl | rfl <;> simp

theorem predicate_text (hinner : ReadsTrees depth) (p : PredicateTree) (hlen : p.text.length < depth)
    (h : p.predicate.readable = true) : Path.predicate (Path.ofChars depth) source p.text = .ok p.predicate := by
  have htrim := (p.tight h).trim_eq
  have hnever : Nesting.never ']' {} p.text = true := p.sealed.never ']' (by simp)
  cases p with
  | position n positive =>
    rw [PredicateTree.predicate, Predicate.readable, decide_eq_true_eq] at h
    rw [PredicateTree.text] at htrim ⊢
    have hlast : Nat.toDigits 10 n ≠ "last()".toList := by
      intro he
      have hmem : 'l' ∈ Nat.toDigits 10 n := by
        rw [he]
        decide
      have hdigit := Nat.isDigit_of_mem_toDigits (by omega) (by omega) hmem
      exact absurd hdigit (by decide)
    obtain ⟨m, rfl⟩ : ∃ m, n = m + 1 := ⟨n - 1, by omega⟩
    rw [Path.predicate, htrim, if_neg (by simp [Nat.toDigits_ne_nil]), if_neg hlast, number?_toDigits, if_pos h]
    rfl
  | last => rfl
  | holds t =>
    rw [PredicateTree.predicate, Predicate.readable] at h
    rw [PredicateTree.text] at htrim hnever hlen ⊢
    have hcut : Nesting.cutAt '=' {} t.text = none := Nesting.cutAt_eq_none.2 (t.sealed.never '=' (by decide))
    rw [predicate_holds hnever htrim (t.holdsPath hinner hlen h) hcut, hinner t hlen h]
    rfl
  | equals t l =>
    rw [PredicateTree.predicate, Predicate.readable, Bool.and_eq_true] at h
    rw [PredicateTree.text] at htrim hnever hlen ⊢
    have hlen' : t.text.length < depth := by
      rw [List.length_append] at hlen
      omega
    have hcut := Nesting.cutAt_append (t.sealed.never '=' (by decide)) t.sealed.closed l.text
    have hequals : '=' ∈ t.text ++ '=' :: l.text := by simp
    have hholds : HoldsPath (t.text ++ '=' :: l.text) :=
      ⟨List.ne_nil_of_mem hequals, fun he => absurd (he ▸ hequals) (by decide),
        number?_eq_none hequals (by decide) (by decide)⟩
    rw [predicate_equals hnever htrim hholds hcut, (t.tight h.1).trim_eq, l.tight.trim_eq, unquote_text, hinner t hlen' h.1]
    rfl

theorem brackets_predicatesText (ps : List PredicateTree) :
    Path.brackets {} [] (predicatesText ps) = some (ps.map PredicateTree.text) := by
  induction ps with
  | nil => rfl
  | cons p ps ih =>
    rw [predicatesText, brackets_predicate (p.sealed.never ']' (by simp)) p.sealed.closed, ih]
    rfl

theorem predicates_text (hinner : ReadsTrees depth) (ps : List PredicateTree)
    (hlen : (predicatesText ps).length ≤ depth) (h : predicatesReadable (treePredicates ps) = true) :
    (ps.map PredicateTree.text).mapM (Path.predicate (Path.ofChars depth) source) = .ok (treePredicates ps) := by
  induction ps with
  | nil => rfl
  | cons p ps ih =>
    rw [treePredicates, predicatesReadable, Bool.and_eq_true] at h
    simp only [predicatesText, List.length_cons, List.length_append] at hlen
    exact mapM_cons_eq_ok.2 ⟨_, _, predicate_text hinner p (by omega) h.1, ih (by omega) h.2, rfl⟩

theorem step_text (hinner : ReadsTrees depth) (s : StepTree) (hlen : s.text.length ≤ depth)
    (h : s.step.readable = true) : Path.step (Path.ofChars depth) source s.text = .ok s.step := by
  rw [step_eq_ok, (s.tight h).trim_eq]
  cases s with
  | self => exact .inl ⟨rfl, rfl⟩
  | parent => exact .inr (.inl ⟨rfl, rfl⟩)
  | test head proper ps =>
    have hcolons := StepTree.not_contains_colons (.test head proper ps) h
    have hbracket : '[' ∉ head.text := StepHead.not_mem_text proper (by decide)
    have hrest : predicatesText ps = [] ∨ ∃ r, predicatesText ps = '[' :: r := by
      cases ps with
      | nil => exact .inl rfl
      | cons p ps => exact .inr ⟨_, rfl⟩
    have hdot {cs : List Char} : head.text ++ predicatesText ps ≠ '.' :: cs := by
      intro he
      refine (StepHead.begins proper '.' ?_).1 rfl
      rw [← List.head?_append_of_ne_nil _ (StepHead.text_ne_nil proper), he]
      rfl
    rw [StepTree.step, StepHead.readable_step, Bool.and_eq_true] at h
    rw [StepTree.text, List.length_append] at hlen
    rw [StepTree.text] at hcolons ⊢
    rw [takeWhile_head hbracket hrest, dropWhile_head hbracket hrest]
    exact .inr (.inr ⟨hdot, hdot, hcolons, ps.map PredicateTree.text, treePredicates ps, brackets_predicatesText ps,
      predicates_text hinner ps (by omega) h.2, test_of_proper proper (treePredicates ps)⟩)

theorem steps_text (source : List Char) (hinner : ReadsTrees depth) (links : List (Bool × StepTree))
    (hlen : ∀ x ∈ links, x.2.text.length ≤ depth) (h : ∀ x ∈ links, x.2.step.readable = true) :
    ∃ sss, (links.map fun x => (x.1, x.2.text)).mapM (readStep (Path.ofChars depth) source) = .ok sss ∧
      linkSteps links = sss.flatten := by
  induction links with
  | nil => exact ⟨[], rfl, rfl⟩
  | cons x links ih =>
    obtain ⟨hx, hlinks⟩ := List.forall_mem_cons.1 hlen
    obtain ⟨hreadable, hrest⟩ := List.forall_mem_cons.1 h
    obtain ⟨sss, hsss, hflat⟩ := ih hlinks hrest
    have hstep : readStep (Path.ofChars depth) source (x.1, x.2.text) =
        .ok (if x.1 then [.descendants, x.2.step] else [x.2.step]) :=
      readStep_eq_ok.2 ⟨x.2.step, step_text hinner x.2 hx hreadable, rfl⟩
    refine ⟨_, mapM_cons_eq_ok.2 ⟨_, _, hstep, hsss, rfl⟩, ?_⟩
    rw [linkSteps, List.flatten_cons, hflat]

theorem length_linksText (links : List (Bool × StepTree)) :
    ∀ x ∈ links, x.2.text.length ≤ (linksText links).length := by
  induction links with
  | nil => exact List.forall_mem_nil _
  | cons x links ih =>
    have hlength : (linksText (x :: links)).length =
        (if x.1 then ['/', '/'] else ['/']).length + x.2.text.length + (linksText links).length := by
      rw [linksText, List.length_append, List.length_append]
    refine List.forall_mem_cons.2 ⟨by omega, fun y hy => ?_⟩
    have hy := ih y hy
    omega

/-- A step is no longer than the path that it is part of. -/
theorem PathTree.length_outline (t : PathTree) : ∀ x ∈ t.outline.2, x.2.text.length ≤ t.text.length := by
  cases t with
  | absolute links =>
    cases links with
    | nil => exact List.forall_mem_nil _
    | cons x links =>
      rw [PathTree.text, if_neg (by simp)]
      exact length_linksText (x :: links)
  | relative first links =>
    rw [PathTree.text, List.length_append]
    refine List.forall_mem_cons.2 ⟨by simp, fun y hy => ?_⟩
    have hy := length_linksText links y hy
    omega

/-- By induction on how deep the predicates are: a path in a predicate is shorter than the step. -/
theorem ofChars_text (depth : Nat) : ReadsTrees depth := by
  induction depth with
  | zero => exact fun t hlen => absurd hlen (Nat.not_lt_zero _)
  | succ depth ih =>
    intro t hlen h
    have htight := t.tight h
    have hlengths := t.length_outline
    rw [t.path_eq, Path.readable, readable_linkSteps_iff] at h
    obtain ⟨sss, hsss, hflat⟩ := steps_text t.text ih t.outline.2
      (fun x hx => Nat.le_of_lt_succ (Nat.lt_of_le_of_lt (hlengths x hx) hlen)) h
    rw [ofChars_eq_ok, htight.trim_eq]
    exact ⟨htight.nonempty, _, _, sss, t.outline_text, hsss, by rw [t.path_eq, hflat]⟩

end Reading

/-- What the grammar writes is read back as what it stands for exactly if all of it can be read back. -/
theorem read_text_iff (t : PathTree) :
    Path.read (String.ofList t.text) = .ok ⟨String.ofList t.text, t.path⟩ ↔ t.path.readable = true := by
  rw [read_eq_ok, String.toList_ofList]
  constructor
  · rintro ⟨hread, -⟩
    exact ofChars_readable _ _ _ hread
  · intro h
    exact ⟨ofChars_text _ t (Nat.lt_succ_self _) h, rfl⟩

def namedTree (name : String) (proper : Xml.isNCName name.toList = true) (ps : List PredicateTree) : StepTree :=
  .test (.child (.name (.named none name))) ⟨nofun, proper⟩ ps

def comparedTree (text : List Char) (free : '\'' ∉ text) : PathTree :=
  .relative (namedTree "a" (by decide)
    [.equals (.relative (namedTree "b" (by decide) []) []) ⟨'\'', text, .inl rfl, free⟩]) []

/-- Brackets, slashes, equals signs and the other quote do no harm in a literal. -/
example : (comparedTree "]/[=\"".toList (by decide)).path.readable = true := by decide

/-- Two colons in a literal are taken for an axis. -/
theorem colons_in_literal_refused :
    String.ofList (comparedTree "x::y".toList (by decide)).text = "a[b='x::y']" ∧
      Path.read "a[b='x::y']" = .error ⟨"a[b='x::y']", .axis "a[b='x::y']"⟩ :=
  ⟨by decide, rfl⟩

end Tabulate
