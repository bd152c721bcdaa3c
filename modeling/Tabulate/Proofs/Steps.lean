import Tabulate.Proofs.Predicates

/-! What steps in marked texts are read as. They are read as without the marks, but for the alias,
exactly where all marks in them are harmless. -/
namespace Tabulate

open MarkedText (plain shown)

section Heads
variable {cs : List Char} {ts : MarkedText} {b : Bool}

/-- In a name nothing is nested, so what is never outside is not in it at all. -/
theorem not_mem_of_never {x : Char} (hc : ∀ c ∈ cs, c ∉ ['\'', '"', '['])
    (hclose : Nesting.never ']' {} cs = true) (hx : Nesting.never x {} cs = true) : x ∉ cs := by
  induction cs with
  | nil => exact List.not_mem_nil
  | cons c cs ih =>
    rw [Nesting.never, Bool.and_eq_true, Bool.not_eq_true'] at hclose hx
    have hcx : c ≠ x := by
      rintro rfl
      exact absurd hx.1 (by simp [Nesting.outside])
    have hce : c ≠ ']' := by
      rintro rfl
      exact absurd hclose.1 (by decide)
    have hq := hc c (by simp)
    simp only [List.mem_cons, List.not_mem_nil, or_false, not_or] at hq
    have hsame : Nesting.after {} c = {} := Nesting.after_unquoted hq.1 hq.2.1 hq.2.2 hce
    rw [hsame] at hclose hx
    intro hmem
    rcases List.mem_cons.1 hmem with rfl | hmem
    · exact hcx rfl
    · exact ih (fun c hc' => hc c (List.mem_cons_of_mem _ hc')) hclose.2 hx.2 hmem

theorem PathPlace.afterAll_name (hc : ∀ c ∈ cs, c ∉ ['\'', '"', '[', ']', '=']) :
    ({} : PathPlace).afterAll cs = {} := by
  induction cs with
  | nil => rfl
  | cons c cs ih =>
    have hc' := hc c (by simp)
    simp only [List.mem_cons, List.not_mem_nil, or_false, not_or] at hc'
    have hsame : Nesting.after {} c = {} :=
      Nesting.after_unquoted hc'.1 hc'.2.1 hc'.2.2.1 hc'.2.2.2.1
    have hnext : ({} : PathPlace).after c = {} := by simp [after, hsame, comparedAfter, hc']
    rw [afterAll_cons, hnext]
    exact ih fun x hx => hc x (List.mem_cons_of_mem _ hx)

theorem contains_cons (p : List Char) (c : Char) (cs : List Char) :
    Text.contains p (c :: cs) = (Text.startsWith p (c :: cs) || Text.contains p cs) := by
  rw [Text.contains, Text.cut?, Text.startsWith]
  cases Text.after? p (c :: cs) with
  | none => simp [Text.contains]
  | some rest => rfl

theorem contains_colons (h : Placed b ts) (hc : Text.contains [':', ':'] (plain ts) = false) :
    Text.contains [':', ':'] (shown ts) = false := by
  induction h with
  | nil => exact hc
  | @char b c ts h ih =>
    rw [plain, contains_cons, Bool.or_eq_false_iff] at hc
    rw [shown, contains_cons, ih hc.2, Bool.or_false]
    -- two colons in a row are not parted by a mark
    generalize decide (c = '/') = fresh at h
    cases h with
    | nil => exact hc.1
    | char _ => simpa [shown, plain, Text.startsWith, Text.after?] using hc.1
    | mark _ _ => simp [shown, Text.startsWith, Text.after?]
  | @mark ts hm h ih =>
    rw [shown, contains_cons, contains_cons, ih hc]
    cases h with
    | nil => decide
    | @char _ c ts _ =>
      have hne : c ≠ ':' := by
        rintro rfl
        exact hm.colonless (by simp [plain])
      simp [shown, Text.startsWith, Text.after?, hne.symm]

theorem exists_marked_head (ts : MarkedText) :
    ∃ us vs, ts = us ++ vs ∧ '[' ∉ plain us ∧ (vs = [] ∨ ∃ ws, vs = some '[' :: ws) := by
  induction ts with
  | nil => exact ⟨[], [], rfl, List.not_mem_nil, .inl rfl⟩
  | cons t ts ih =>
    by_cases ht : t = some '['
    · exact ⟨[], t :: ts, rfl, List.not_mem_nil, .inr ⟨ts, by rw [ht]⟩⟩
    · obtain ⟨us, vs, rfl, hus, hvs⟩ := ih
      refine ⟨t :: us, vs, rfl, ?_, hvs⟩
      cases t with
      | none => exact hus
      | some c =>
        rw [plain, List.mem_cons, not_or]
        exact ⟨fun he => ht (by rw [he]), hus⟩

end Heads

section Steps
variable {inner inner' : List Char → Except PathError Path} {source source' cs : List Char}
  {ts : MarkedText} {b : Bool}

/-- A step that is more than dots and does not spell out its axis. -/
structure IsNamed (raw : List Char) : Prop where
  notSelf : raw ≠ ['.']
  notParent : raw ≠ ['.', '.']
  noAxis : Text.contains [':', ':'] raw = false

/-- How a step is read that has a name: it is cut at its brackets, unless one is closed that was not opened. -/
theorem step_eq_named (h : IsNamed (Text.trim cs)) : Path.step inner source cs =
    if Path.overcloses {} (behindName cs) then .error ⟨String.ofList source, .belowZero⟩
    else match Path.brackets {} [] (behindName cs) with
      | none => .error ⟨String.ofList source, .afterPredicate (String.ofList (Text.trim cs))⟩
      | some ts => (do
        let ps ← ts.mapM (Path.predicate inner source)
        Path.blame source (Path.test ((Text.trim cs).takeWhile (· != '[')) ps)) := by
  rw [Path.step, if_neg h.notSelf, if_neg h.notParent, if_neg (Bool.eq_false_iff.1 h.noAxis), cutStep_eq]
  split
  · rfl
  · cases Path.brackets {} [] (behindName cs) <;> rfl

theorem blame_eq_ok {α : Type} {x : Except PathFault α} {a : α} : Path.blame source x = .ok a ↔ x = .ok a := by
  cases x with
  | ok b => simp [Path.blame]
  | error fault => simp [Path.blame]

theorem step_eq_ok {S : Step} : Path.step inner source cs = .ok S ↔
    (Text.trim cs = ['.'] ∧ S = .self) ∨ (Text.trim cs = ['.', '.'] ∧ S = .parent) ∨
    (Text.trim cs ≠ ['.'] ∧ Text.trim cs ≠ ['.', '.'] ∧
      Text.contains [':', ':'] (Text.trim cs) = false ∧
      ∃ ts ps, Path.brackets {} [] ((Text.trim cs).dropWhile (· != '[')) = some ts ∧
        ts.mapM (Path.predicate inner source) = .ok ps ∧
        Path.test ((Text.trim cs).takeWhile (· != '[')) ps = .ok S) := by
  by_cases hself : Text.trim cs = ['.']
  · rw [Path.step, if_pos hself]
    constructor
    · intro h
      cases h
      exact .inl ⟨hself, rfl⟩
    · rintro (⟨-, rfl⟩ | ⟨hparent, -⟩ | ⟨hne, -⟩)
      · rfl
      · exact absurd (hself.symm.trans hparent) (by decide)
      · exact absurd hself hne
  by_cases hparent : Text.trim cs = ['.', '.']
  · rw [Path.step, if_neg hself, if_pos hparent]
    constructor
    · intro h
      cases h
      exact .inr (.inl ⟨hparent, rfl⟩)
    · rintro (⟨he, -⟩ | ⟨-, rfl⟩ | ⟨-, hne, -⟩)
      · exact absurd he hself
      · rfl
      · exact absurd hparent hne
  by_cases haxis : Text.contains [':', ':'] (Text.trim cs) = true
  · rw [Path.step, if_neg hself, if_neg hparent, if_pos haxis]
    simp [hself, hparent, haxis, Path.blame]
  · have haxis := Bool.eq_false_iff.2 haxis
    rw [step_eq_named ⟨hself, hparent, haxis⟩]
    simp only [hself, hparent, haxis, false_and, false_or, ne_eq, not_false_eq_true, true_and]
    change _ ↔ ∃ ts ps, Path.brackets {} [] (behindName cs) = some ts ∧ _
    by_cases hover : Path.overcloses {} (behindName cs) = true
    · rw [if_pos hover, brackets_of_overcloses hover]
      simp
    · rw [if_neg hover]
      cases Path.brackets {} [] (behindName cs) with
      | none => simp
      | some ts =>
        cases hps : ts.mapM (Path.predicate inner source) with
        | error e => simp [hps, bind, Except.bind]
        | ok ps => simp [hps, bind, Except.bind, blame_eq_ok]

theorem trim_mark (cs : List Char) : Text.trim ('_' :: ':' :: cs) = '_' :: ':' :: Text.trimEnd cs := by
  have hstart : Text.trimStart ('_' :: ':' :: cs) = '_' :: ':' :: cs := rfl
  have hend : [':', '_'].dropWhile Text.isBlank = [':', '_'] := by decide
  rw [Text.trim, hstart, Text.trimEnd, List.reverse_cons, List.reverse_cons, List.append_assoc,
    List.dropWhile_append]
  split
  · next hempty =>
    rw [List.isEmpty_iff] at hempty
    rw [Text.trimEnd, hempty]
    rfl
  · rw [List.reverse_append]
    rfl

theorem barePredicates_eq_iff {ps qs : List Predicate} :
    barePredicates qs = barePredicates ps ↔ List.Forall₂ (fun p q => q.bare = p.bare) ps qs := by
  induction ps generalizing qs with
  | nil => cases qs <;> simp [barePredicates]
  | cons p ps ih => cases qs <;> simp [barePredicates, ih]

/-- Nothing is nested in the name of a step. -/
theorem name_chars {head rest : List Char} {ps : List Predicate} {S : Step} (hS : Path.test head ps = .ok S)
    (hbracket : '[' ∉ head) (hwhole : Nesting.never '/' {} (head ++ rest) = true)
    (hbalanced : Nesting.never ']' {} (head ++ rest) = true) :
    ∀ c ∈ head, c ∉ ['\'', '"', '[', ']', '=', '/'] := by
  have hchars := (test_chars hS).2
  have hquotes : ∀ c ∈ head, c ∉ ['\'', '"', '['] := by
    intro c hc hbad
    have hc' := hchars c hc
    simp only [List.mem_cons, List.not_mem_nil, or_false, not_or] at hc' hbad
    rcases hbad with hbad | hbad | rfl
    · exact hc'.2.1 hbad
    · exact hc'.2.2 hbad
    · exact hbracket hc
  have hnever := Nesting.never_of_append hbalanced
  have hclose : ']' ∉ head := not_mem_of_never hquotes hnever hnever
  have hslash : '/' ∉ head := not_mem_of_never hquotes hnever (Nesting.never_of_append hwhole)
  intro c hc hbad
  have hc' := hchars c hc
  simp only [List.mem_cons, List.not_mem_nil, or_false, not_or] at hc' hbad
  rcases hbad with hbad | hbad | rfl | rfl | hbad | rfl
  · exact hc'.2.1 hbad
  · exact hc'.2.2 hbad
  · exact hbracket hc
  · exact hclose hc
  · exact hc'.1 hbad
  · exact hslash hc

theorem ne_of_plain_ne {cs : List Char} (hc : ':' ∉ cs) (h : plain ts ≠ cs) : shown ts ≠ cs := by
  by_cases hmarked : none ∈ ts
  · intro he
    exact hc (he ▸ colon_of_mem hmarked)
  · rwa [shown_eq_plain hmarked]

theorem not_mem_of_dots (h : Placed b ts) (hd : plain ts = ['.'] ∨ plain ts = ['.', '.']) : none ∉ ts := by
  have hslash : '/' ∉ plain ts := by
    rcases hd with hd | hd <;> rw [hd] <;> decide
  rcases h.of_no_slash hslash with hmem | ⟨us, rfl, -, hmark⟩
  · exact hmem
  · have hfirst := hmark.first '.'
    rw [plain] at hd
    rcases hd with hd | hd <;> simp [hd] at hfirst

theorem stranded_left {us vs : MarkedText} (hne : plain us ≠ []) :
    stranded (us ++ vs) = stranded us := by
  cases us with
  | nil => exact absurd rfl hne
  | cons u us =>
    cases u with
    | some c => rfl
    | none =>
      rw [plain] at hne
      obtain ⟨c, cs, hcs⟩ := List.exists_cons_of_ne_nil hne
      simp [stranded, hcs]

/-- A name and its predicates are read alike with their marks exactly where all of them are harmless. -/
theorem step_named (hinner : ReadsMarked inner inner') {name rest : MarkedText}
    (h : Placed b (name ++ rest)) (hs : stranded name = false) (hbracket : '[' ∉ plain name)
    (hrest : rest = [] ∨ ∃ ws, rest = some '[' :: ws) (hpart : IsPart {} (plain name ++ plain rest))
    {texts : List (List Char)} {ps : List Predicate} {S : Step}
    (hts : Path.brackets {} [] (plain rest) = some texts)
    (hps : texts.mapM (Path.predicate inner source) = .ok ps) (hS : Path.test (plain name) ps = .ok S) :
    (({} : PathPlace).afterAll (plain name ++ plain rest)).compared = none ∧
      (allHarmless [] {} (name ++ rest) = true ↔ ∃ texts' ps' S',
        Path.brackets {} [] (shown rest) = some texts' ∧ texts'.mapM (Path.predicate inner' source') = .ok ps' ∧
          Path.test (shown name) ps' = .ok S' ∧ S'.bare = S.bare) := by
  have hname := name_chars hS hbracket hpart.whole hpart.balanced
  have hafter : ({} : PathPlace).afterAll (plain name) = {} := by
    refine PathPlace.afterAll_name fun c hc hbad => hname c hc ?_
    simp only [List.mem_cons, List.not_mem_nil, or_false] at hbad ⊢
    tauto
  have hnest : Nesting.afterAll {} (plain name) = {} := by
    have hnesting := congrArg PathPlace.nesting hafter
    rwa [PathPlace.nesting_afterAll] at hnesting
  have hbalanced := Nesting.never_right hpart.balanced
  have hclosed := hpart.closed
  rw [Nesting.afterAll_append] at hclosed
  rw [hnest] at hbalanced hclosed
  have hprest : Placed false rest := by
    rcases hrest with rfl | ⟨ws, rfl⟩
    · exact .nil
    · exact .char h.right
  obtain ⟨uss, rfl, hbrackets, htexts, hcompared, hharm⟩ := brackets_marked rest.length (Nat.le_refl _)
    hprest PathPlace.behind_start (fun _ => rfl) hbalanced hclosed hts
  rw [List.mapM_map] at hps
  have hpredicates := mapM_iff (H := fun us => allHarmless [] {} us = true)
    (R := fun p q => q.bare = p.bare) (g := fun us => Path.predicate inner' source' (shown us))
    (fun us hmem p hp => predicate_marked hinner (htexts us hmem).1 (htexts us hmem).2 hp) hps
  have hcuts : ∀ c ∈ plain name, c ∉ ['/', '[', ']'] := by
    intro c hc hbad
    refine hname c hc ?_
    simp only [List.mem_cons, List.not_mem_nil, or_false] at hbad ⊢
    tauto
  have hfirst : allHarmless (plain rest ++ []) {} name = allHarmless [] {} name := by
    rcases hrest with rfl | ⟨ws, rfl⟩
    · rfl
    · rw [plain, List.cons_append, allHarmless_cut (by decide)]
  rw [allHarmless_append, hfirst, hafter, Bool.and_eq_true, hharm, hpredicates,
    PathPlace.afterAll_append, hafter]
  refine ⟨hcompared, ?_⟩
  constructor
  · rintro ⟨hfirst, ps', hps', hbare⟩
    obtain ⟨S', hS', hbare'⟩ := (test_marked h.left hs hcuts hS).1 ⟨hfirst, barePredicates_eq_iff.2 hbare⟩
    exact ⟨_, ps', S', hbrackets, by rwa [List.mapM_map], hS', hbare'⟩
  · rintro ⟨texts', ps', S', htexts', hps', hS', hbare'⟩
    obtain rfl := Option.some.inj (hbrackets.symm.trans htexts')
    rw [List.mapM_map] at hps'
    obtain ⟨hfirst, hbare⟩ := (test_marked h.left hs hcuts hS).2 ⟨S', hS', hbare'⟩
    exact ⟨hfirst, ps', hps', barePredicates_eq_iff.1 hbare⟩

theorem step_unstranded (hinner : ReadsMarked inner inner') (h : Placed b ts) (hs : stranded ts = false)
    (hpart : IsPart {} (plain ts)) {S : Step} (hS : Path.step inner source (plain ts) = .ok S) :
    (({} : PathPlace).afterAll (plain ts)).compared = none ∧
      (allHarmless [] {} ts = true ↔ ∃ S', Path.step inner' source' (shown ts) = .ok S' ∧ S'.bare = S.bare) := by
  obtain ⟨b', us, -, hplain, hshown, hus, hstrand, -, hharm⟩ := trim_marked h hs
  have htrimmed : IsPart {} (plain us) := by
    rw [← hplain]
    exact hpart.trim
  rw [← PathPlace.afterAll_trim Nesting.quoted_default (s := {}), hharm]
  rw [step_eq_ok] at hS
  rw [hplain] at hS ⊢
  simp only [step_eq_ok, hshown]
  obtain ⟨hself, rfl⟩ | ⟨hparent, rfl⟩ | ⟨hself, hparent, haxis, ts, ps, hts, hps, hS⟩ := hS
  · have hmem := not_mem_of_dots hus (.inl hself)
    rw [shown_eq_plain hmem, hself, allHarmless_of_not_mem hmem]
    exact ⟨rfl, by simp⟩
  · have hmem := not_mem_of_dots hus (.inr hparent)
    rw [shown_eq_plain hmem, hparent, allHarmless_of_not_mem hmem]
    exact ⟨rfl, by simp⟩
  · have hself' : shown us ≠ ['.'] := ne_of_plain_ne (by decide) hself
    have hparent' : shown us ≠ ['.', '.'] := ne_of_plain_ne (by decide) hparent
    have haxis' := contains_colons hus haxis
    obtain ⟨name, rest, rfl, hbracket, hrest⟩ := exists_marked_head us
    have hbracket' : '[' ∉ shown name := by rwa [mem_shown (by decide)]
    have hrest₁ : plain rest = [] ∨ ∃ r, plain rest = '[' :: r := by
      rcases hrest with rfl | ⟨ws, rfl⟩
      · exact .inl rfl
      · exact .inr ⟨plain ws, rfl⟩
    have hrest₂ : shown rest = [] ∨ ∃ r, shown rest = '[' :: r := by
      rcases hrest with rfl | ⟨ws, rfl⟩
      · exact .inl rfl
      · exact .inr ⟨shown ws, rfl⟩
    rw [plain_append] at htrimmed hts hS ⊢
    rw [shown_append] at hself' hparent' haxis' ⊢
    rw [takeWhile_head hbracket hrest₁] at hS
    rw [dropWhile_head hbracket hrest₁] at hts
    rw [stranded_left (test_chars hS).1] at hstrand
    obtain ⟨hcompared, hread⟩ := step_named hinner hus hstrand hbracket hrest htrimmed hts hps hS
    rw [hread, takeWhile_head hbracket' hrest₂, dropWhile_head hbracket' hrest₂]
    refine ⟨hcompared, ?_⟩
    constructor
    · rintro ⟨texts, ps', S', htexts, hps', hS', hbare⟩
      exact ⟨S', .inr (.inr ⟨hself', hparent', haxis', texts, ps', htexts, hps', hS'⟩), hbare⟩
    · rintro ⟨S', ⟨hself, -⟩ | ⟨hparent, -⟩ | ⟨-, -, -, texts, ps', htexts, hps', hS'⟩, hbare⟩
      · exact absurd hself hself'
      · exact absurd hparent hparent'
      · exact ⟨texts, ps', S', htexts, hps', hS', hbare⟩

theorem head?_of_start {as cs : List Char} (h : as <+: cs) {c : Char} (hc : c ∈ as.head?) : c ∈ cs.head? := by
  obtain ⟨bs, rfl⟩ := h
  rw [Option.mem_def] at hc ⊢
  rw [List.head?_append, hc]
  rfl

theorem isBlank_head_trim {c : Char} (h : c ∈ (Text.trim cs).head?) : Text.isBlank c = false := by
  obtain ⟨bs, hcs, -⟩ := eq_trimEnd_append (Text.trimStart cs)
  have hstart : c ∈ (Text.trimStart cs).head? := head?_of_start ⟨bs, hcs.symm⟩ h
  have hhead := List.head?_dropWhile_not Text.isBlank cs
  rw [Option.mem_def] at hstart
  rw [Text.trimStart] at hstart
  rwa [hstart] at hhead

theorem takeWhile_trim_subset (cs : List Char) :
    (Text.trim cs).takeWhile (fun c => c != '[' && c != '/') ⊆ cs.takeWhile fun c => c != '[' && c != '/' := by
  obtain ⟨bs, hcs, hbs⟩ := eq_append_trimStart cs
  obtain ⟨es, hes, -⟩ := eq_trimEnd_append (Text.trimStart cs)
  have hall : ∀ c ∈ bs, (c != '[' && c != '/') = true := by
    intro c hc
    rw [Bool.and_eq_true, bne_iff_ne, bne_iff_ne]
    exact ⟨ne_of_blank (hbs c hc) (by decide), ne_of_blank (hbs c hc) (by decide)⟩
  intro c hc
  have hstart := takeWhile_subset_append _ es hc
  rw [hcs, List.takeWhile_append_of_pos hall, hes]
  exact List.mem_append_right _ hstart

/-- What is marked has no prefix in its name. -/
theorem not_mem_name (h : ':' ∉ cs.takeWhile fun c => c != '[' && c != '/') {head rest : List Char}
    (ht : Text.trim cs = head ++ rest) (hhead : ∀ c ∈ head, c ∉ ['[', '/']) : ':' ∉ head := by
  have hall : head.takeWhile (fun c => c != '[' && c != '/') = head :=
    List.takeWhile_eq_self_iff.2 fun c hc => by simpa using hhead c hc
  intro hc
  rw [← hall] at hc
  have htrim := takeWhile_subset_append _ rest hc
  rw [← ht] at htrim
  exact h (takeWhile_trim_subset cs htrim)

theorem step_mark {ts : List Char} (hblank : ∀ c ∈ ts.head?, Text.isBlank c = true) {S : Step}
    (hS : Path.step inner source ('_' :: ':' :: ts) = .ok S) :
    ∃ own ps, S.bare = .child (.name (.named none (String.ofList own))) ps ∧
      ∀ c ∈ own.head?, Text.isBlank c = true := by
  have hown {c : Char} (hc : c ∈ ((Text.trimEnd ts).takeWhile (· != '[')).head?) : Text.isBlank c = true := by
    obtain ⟨es, hes, -⟩ := eq_trimEnd_append ts
    exact hblank c (head?_of_start ⟨es, hes.symm⟩ (head?_of_start (List.takeWhile_prefix _) hc))
  rw [step_eq_ok, trim_mark] at hS
  obtain ⟨hself, -⟩ | ⟨hparent, -⟩ | ⟨-, -, -, texts, ps, -, -, htest⟩ := hS
  · cases hself
  · cases hparent
  · have hhead : ('_' :: ':' :: Text.trimEnd ts).takeWhile (· != '[') =
        '_' :: ':' :: (Text.trimEnd ts).takeWhile (· != '[') := rfl
    rw [hhead, test_name (by simp) (by simp) (by simp)] at htest
    cases ht : Path.nameTest ('_' :: ':' :: (Text.trimEnd ts).takeWhile (· != '[')) with
    | error e =>
      rw [ht] at htest
      cases htest
    | ok t =>
      rw [ht] at htest
      cases htest
      rcases nameTest_mark ht with hstar | rfl
      · exact absurd (hown (c := '*') (by rw [hstar]; rfl)) (by decide)
      · exact ⟨_, barePredicates ps, rfl, fun c hc => hown hc⟩

/-- A name without the alias begins with no blank. -/
theorem step_own {S : Step} {own : List Char} {ps' : List Predicate}
    (hmark : ':' ∉ cs.takeWhile fun c => c != '[' && c != '/') (hpart : IsPart {} cs)
    (hS : Path.step inner source cs = .ok S)
    (hbare : S.bare = .child (.name (.named none (String.ofList own))) ps') :
    ∃ c ∈ own.head?, Text.isBlank c = false := by
  obtain ⟨-, rfl⟩ | ⟨-, rfl⟩ | ⟨-, -, -, ts, ps, -, -, htest⟩ := step_eq_ok.1 hS
  · cases hbare
  · cases hbare
  · have hpart := hpart.trim
    have hsplit := (List.takeWhile_append_dropWhile (p := (· != '[')) (l := Text.trim cs)).symm
    have hbracket : '[' ∉ (Text.trim cs).takeWhile (· != '[') :=
      fun hc => absurd (List.mem_takeWhile_imp hc) (by decide)
    generalize (Text.trim cs).takeWhile (· != '[') = head at *
    generalize (Text.trim cs).dropWhile (· != '[') = rest at *
    obtain ⟨-, t, rfl, -, rfl⟩ | ⟨-, rfl⟩ | ⟨-, rfl⟩ | ⟨-, -, -, t, ht, rfl⟩ := test_cases htest
    · cases hbare
    · cases hbare
    · cases hbare
    · obtain ⟨c, name, rfl⟩ := List.exists_cons_of_ne_nil (nameTest_chars ht).1
      rw [hsplit] at hpart
      have hchars := name_chars htest hbracket hpart.whole hpart.balanced
      have hcolon : ':' ∉ c :: name := by
        refine not_mem_name hmark hsplit fun x hx hbad => hchars x hx ?_
        simp only [List.mem_cons, List.not_mem_nil, or_false] at hbad ⊢
        tauto
      by_cases hstar : c :: name = ['*']
      · rw [hstar] at ht
        cases ht
        cases hbare
      · obtain ⟨rfl, -⟩ := nameTest_marked hcolon hstar ht
        have heq : c :: name = own := by
          simp only [Step.bare, NodeTest.bare, NameTest.bare, Step.child.injEq, NodeTest.name.injEq,
            NameTest.named.injEq, String.ofList_inj, true_and] at hbare
          exact hbare.1
        have htrim : c ∈ (Text.trim cs).head? := by
          rw [hsplit]
          rfl
        exact ⟨c, by rw [← heq]; rfl, isBlank_head_trim htrim⟩

/-- A step with a stranded mark is read as a name that begins with a blank. -/
theorem step_stranded (h : Placed b ts) (hs : stranded ts = true) (hpart : IsPart {} (plain ts)) {S S' : Step}
    (hS : Path.step inner source (plain ts) = .ok S) (hS' : Path.step inner' source' (shown ts) = .ok S') :
    S'.bare ≠ S.bare := by
  intro hbare
  obtain ⟨us, rfl, hus, -⟩ := exists_of_stranded h hs
  have hmark : Markable (plain us) := by
    cases h with
    | mark hm _ => exact hm
  have hblank : ∀ c ∈ (shown us).head?, Text.isBlank c = true := by
    intro c hc
    rcases hus with rfl | ⟨d, vs, rfl, hd⟩
    · cases hc
    · cases hc
      exact hd
  obtain ⟨own, ps', hown, hblank⟩ := step_mark hblank hS'
  obtain ⟨c, hc, hnot⟩ := step_own hmark.colonless hpart hS (hbare.symm.trans hown)
  rw [hblank c hc] at hnot
  cases hnot

/-- A step is read alike with its marks exactly where all of them are harmless. -/
theorem step_marked (hinner : ReadsMarked inner inner') (h : Placed b ts) (hpart : IsPart {} (plain ts))
    {S : Step} (hS : Path.step inner source (plain ts) = .ok S) :
    (({} : PathPlace).afterAll (plain ts)).compared = none ∧
      (allHarmless [] {} ts = true ↔ ∃ S', Path.step inner' source' (shown ts) = .ok S' ∧ S'.bare = S.bare) := by
  by_cases hs : stranded ts = true
  · obtain ⟨us, rfl, -, hharm⟩ := exists_of_stranded h hs
    have hus : Placed false us := by
      cases h with
      | mark _ h => exact h
    have hread : _ ∧ (_ ↔ ∃ S', Path.step inner' source' (shown us) = .ok S' ∧ _) :=
      step_unstranded hinner hus (stranded_of_false hus) hpart hS
    refine ⟨hread.1, ?_⟩
    rw [hharm]
    constructor
    · intro hfalse
      cases hfalse
    · rintro ⟨S', hS', hbare⟩
      exact absurd hbare (step_stranded h hs hpart hS hS')
  · exact step_unstranded hinner h (Bool.eq_false_iff.2 hs) hpart hS

end Steps

end Tabulate
