/-! Programs that change a state and may fail. A program of several steps succeeds exactly when its
steps do, each from the state that the one before has left. -/
namespace Tabulate.Effects
variable {ε σ α β : Type}

theorem bind_eq_ok {x : EStateM ε σ α} {f : α → EStateM ε σ β} {s s' : σ} {b : β} :
    (x >>= f) s = .ok b s' ↔ ∃ a s₁, x s = .ok a s₁ ∧ f a s₁ = .ok b s' := by
  show EStateM.bind x f s = _ ↔ _
  rw [EStateM.bind]
  cases x s with
  | ok a s₁ => exact ⟨fun h => ⟨a, s₁, rfl, h⟩, by rintro ⟨_, _, ⟨⟩, hf⟩; exact hf⟩
  | error e s₁ => simp

theorem bind_eq_error {x : EStateM ε σ α} {f : α → EStateM ε σ β} {s s' : σ} {e : ε} :
    (x >>= f) s = .error e s' ↔
      x s = .error e s' ∨ ∃ a s₁, x s = .ok a s₁ ∧ f a s₁ = .error e s' := by
  show EStateM.bind x f s = _ ↔ _
  rw [EStateM.bind]
  cases x s with
  | ok a s₁ =>
    exact ⟨fun h => .inr ⟨a, s₁, rfl, h⟩, fun h => h.elim nofun fun ⟨_, _, h, hf⟩ => by cases h; exact hf⟩
  | error e s₁ => simp

theorem pure_eq_ok {a b : α} {s s' : σ} :
    (pure a : EStateM ε σ α) s = .ok b s' ↔ a = b ∧ s = s' := by
  show EStateM.Result.ok a s = .ok b s' ↔ _
  simp

theorem throw_ne_ok {e : ε} {s s' : σ} {a : α} : (throw e : EStateM ε σ α) s ≠ .ok a s' := nofun

theorem ofExcept_eq_ok {x : Except ε α} {s s' : σ} {a : α} :
    (MonadExcept.ofExcept x : EStateM ε σ α) s = .ok a s' ↔ x = .ok a ∧ s = s' := by
  cases x with
  | ok b => exact pure_eq_ok.trans (by simp)
  | error e => exact ⟨fun h => absurd h throw_ne_ok, nofun⟩

theorem except_bind_eq_ok {x : Except ε α} {f : α → Except ε β} {b : β} :
    (x >>= f) = .ok b ↔ ∃ a, x = .ok a ∧ f a = .ok b := by
  cases x with
  | ok a => exact ⟨fun h => ⟨a, rfl, h⟩, by rintro ⟨_, ⟨⟩, h⟩; exact h⟩
  | error e => exact ⟨nofun, nofun⟩

theorem except_map_eq_ok {x : Except ε α} {f : α → β} {b : β} : x.map f = .ok b ↔ ∃ a, x = .ok a ∧ f a = b := by
  cases x with
  | ok a => simp [Except.map]
  | error e => simp [Except.map]

theorem mapError_eq_ok {ε' : Type} {f : ε → ε'} {x : Except ε α} {a : α} :
    x.mapError f = .ok a ↔ x = .ok a := by
  cases x with
  | ok b =>
    constructor
    · intro h
      cases h
      rfl
    · intro h
      cases h
      rfl
  | error e =>
    constructor
    · intro h
      cases h
    · intro h
      cases h

theorem map_eq_ok {f : α → β} {x : EStateM ε σ α} {s s' : σ} {b : β} :
    (f <$> x) s = .ok b s' ↔ ∃ a, x s = .ok a s' ∧ f a = b := by
  show EStateM.map f x s = _ ↔ _
  rw [EStateM.map]
  cases x s with
  | ok a s₁ => simp [and_assoc, and_comm]
  | error e s₁ => simp

theorem discard_eq_bind (x : EStateM ε σ α) :
    (discard x : EStateM ε σ PUnit) = x >>= fun _ => pure PUnit.unit :=
  map_eq_pure_bind _ x

/-- A program that refuses something goes on where it does not have to. -/
theorem refuse_eq_ok {c : Prop} [Decidable c] {e : ε} {f : PUnit → EStateM ε σ α} {s s' : σ} {a : α} :
    (if c then throw e >>= f else f ⟨⟩) s = .ok a s' ↔ ¬c ∧ f ⟨⟩ s = .ok a s' := by
  by_cases hc : c
  · rw [if_pos hc, bind_eq_ok]
    simp [hc, throw_ne_ok]
  · rw [if_neg hc]
    simp [hc]

def left : EStateM.Result ε σ α → σ
  | .ok _ s => s
  | .error _ s => s

def succeeds (p : σ → Bool) : EStateM.Result ε σ α → Bool
  | .ok _ s => p s
  | .error .. => false

theorem succeeds_iff {p : σ → Bool} {r : EStateM.Result ε σ α} :
    succeeds p r = true ↔ ∃ a s, r = .ok a s ∧ p s = true := by
  cases r with
  | ok a s => exact ⟨fun h => ⟨a, s, rfl, h⟩, by rintro ⟨_, _, ⟨⟩, h⟩; exact h⟩
  | error e s => exact ⟨nofun, nofun⟩

theorem exists_of_run' {p : EStateM ε σ α} {s : σ} {a : α} (h : p.run' s = some a) : ∃ s', p s = .ok a s' := by
  delta EStateM.run' EStateM.run at h
  cases hp : p s with
  | ok b s' =>
    rw [hp] at h
    cases h
    exact ⟨s', rfl⟩
  | error e s' =>
    rw [hp] at h
    cases h

theorem exists_of_succeeds {p : σ → Bool} {r : EStateM.Result ε σ PUnit} (h : succeeds p r = true) :
    ∃ s, r = .ok () s ∧ p s = true := by
  obtain ⟨_, s, hr, hs⟩ := succeeds_iff.1 h
  exact ⟨s, hr, hs⟩

/-- A pass over a list fails where it gets to a member that fails. -/
theorem mapM_eq_error {f : α → EStateM ε σ β} {xs : List α} {s s' : σ} {e : ε} (h : xs.mapM f s = .error e s') :
    ∃ as x bs ys s₁, xs = as ++ x :: bs ∧ as.mapM f s = .ok ys s₁ ∧ f x s₁ = .error e s' := by
  induction xs generalizing s with
  | nil => exact absurd h nofun
  | cons x xs ih =>
    rw [List.mapM_cons] at h
    rcases bind_eq_error.1 h with hx | ⟨y, s₁, hx, h⟩
    · exact ⟨[], x, xs, [], s, rfl, rfl, hx⟩
    · rcases bind_eq_error.1 h with hxs | ⟨ys, s₂, -, hp⟩
      · obtain ⟨as, z, bs, ys, s₂, rfl, has, hz⟩ := ih hxs
        refine ⟨x :: as, z, bs, y :: ys, s₂, rfl, ?_, hz⟩
        rw [List.mapM_cons]
        exact bind_eq_ok.2 ⟨y, s₁, hx, bind_eq_ok.2 ⟨ys, s₂, has, rfl⟩⟩
      · exact absurd hp nofun

/-- A pass over a list fails with the error of the first member that fails. -/
theorem mapM_first_error {f : α → Except ε β} {xs : List α} {e : ε} :
    xs.mapM f = .error e ↔
      ∃ as x bs, xs = as ++ x :: bs ∧ (∀ a ∈ as, ∃ b, f a = .ok b) ∧ f x = .error e := by
  induction xs with
  | nil => exact ⟨nofun, fun ⟨as, x, bs, h, _⟩ => by cases as <;> cases h⟩
  | cons y ys ih =>
    rw [List.mapM_cons]
    cases hy : f y with
    | error e' =>
      constructor
      · intro h
        cases h
        exact ⟨[], y, ys, rfl, nofun, hy⟩
      · rintro ⟨as, x, bs, hxs, has, hx⟩
        cases as with
        | nil =>
          cases hxs
          exact congrArg _ (Except.error.inj (hy.symm.trans hx))
        | cons a as =>
          cases hxs
          obtain ⟨b, hb⟩ := has y (by simp)
          exact nomatch hy.symm.trans hb
    | ok b =>
      have hcons : (do let bs ← ys.mapM f; Except.ok (b :: bs)) = .error e ↔ ys.mapM f = .error e := by
        cases ys.mapM f with
        | ok bs => exact ⟨nofun, nofun⟩
        | error e' => exact ⟨fun h => by cases h; rfl, fun h => by cases h; rfl⟩
      refine (hcons.trans ih).trans ⟨?_, ?_⟩
      · rintro ⟨as, x, bs, rfl, has, hx⟩
        exact ⟨y :: as, x, bs, rfl, by simpa using ⟨⟨b, hy⟩, has⟩, hx⟩
      · rintro ⟨as, x, bs, hxs, has, hx⟩
        cases as with
        | nil =>
          cases hxs
          exact nomatch hy.symm.trans hx
        | cons a as =>
          cases hxs
          exact ⟨as, x, bs, rfl, fun a ha => has a (List.mem_cons_of_mem _ ha), hx⟩

theorem forM_append_eq_ok {f : α → EStateM ε σ PUnit} {as bs : List α} {s s' : σ} :
    (as ++ bs).forM f s = .ok () s' ↔ ∃ s₁, as.forM f s = .ok () s₁ ∧ bs.forM f s₁ = .ok () s' := by
  induction as generalizing s with
  | nil => exact ⟨fun h => ⟨s, rfl, h⟩, by rintro ⟨_, ⟨⟩, h⟩; exact h⟩
  | cons a as ih =>
    constructor
    · intro h
      obtain ⟨_, s₁, ha, h⟩ := bind_eq_ok.1 h
      obtain ⟨s₂, has, hbs⟩ := ih.1 h
      exact ⟨s₂, bind_eq_ok.2 ⟨_, s₁, ha, has⟩, hbs⟩
    · rintro ⟨s₂, h, hbs⟩
      obtain ⟨_, s₁, ha, has⟩ := bind_eq_ok.1 h
      exact bind_eq_ok.2 ⟨_, s₁, ha, ih.2 ⟨s₂, has, hbs⟩⟩

/-- A loop whose steps all leave the state as it is does so too. -/
theorem forM_eq_ok_self {f : α → EStateM ε σ PUnit} {xs : List α} {s : σ} (h : ∀ x ∈ xs, f x s = .ok () s) :
    xs.forM f s = .ok () s := by
  induction xs with
  | nil => rfl
  | cons x xs ih => exact bind_eq_ok.2 ⟨(), s, h x (by simp), ih fun y hy => h y (List.mem_cons_of_mem x hy)⟩

/-- A loop fails where it gets to a member that fails. -/
theorem forM_eq_error {f : α → EStateM ε σ PUnit} {xs : List α} {s s' : σ} {e : ε} :
    xs.forM f s = .error e s' ↔
      ∃ as x bs s₁, xs = as ++ x :: bs ∧ as.forM f s = .ok () s₁ ∧ f x s₁ = .error e s' := by
  induction xs generalizing s with
  | nil =>
    refine ⟨nofun, ?_⟩
    rintro ⟨as, x, bs, _, h, -⟩
    cases as <;> cases h
  | cons y ys ih =>
    constructor
    · intro h
      rcases bind_eq_error.1 h with hy | ⟨_, s₁, hy, hys⟩
      · exact ⟨[], y, ys, s, rfl, rfl, hy⟩
      · obtain ⟨as, x, bs, s₂, rfl, has, hx⟩ := ih.1 hys
        exact ⟨y :: as, x, bs, s₂, rfl, bind_eq_ok.2 ⟨_, s₁, hy, has⟩, hx⟩
    · rintro ⟨as, x, bs, s₁, hxs, has, hx⟩
      cases as with
      | nil =>
        cases hxs
        cases has
        exact bind_eq_error.2 (.inl hx)
      | cons a as =>
        cases hxs
        obtain ⟨_, s₂, ha, has⟩ := bind_eq_ok.1 has
        exact bind_eq_error.2 (.inr ⟨_, s₂, ha, ih.2 ⟨as, x, bs, s₁, rfl, has, hx⟩⟩)

/-- What every step of a loop keeps, the loop keeps. -/
theorem forM_rel {R : σ → σ → Prop} (refl : ∀ s, R s s) (trans : ∀ {a b c}, R a b → R b c → R a c)
    {f : α → EStateM ε σ PUnit} {xs : List α}
    (step : ∀ x ∈ xs, ∀ s s', f x s = .ok () s' → R s s') {s s' : σ} (h : xs.forM f s = .ok () s') :
    R s s' := by
  induction xs generalizing s with
  | nil => exact (pure_eq_ok.1 h).2 ▸ refl s
  | cons x xs ih =>
    obtain ⟨_, s₁, hx, hxs⟩ := bind_eq_ok.1 h
    have hs : R s s₁ := step x (by simp) s s₁ hx
    exact trans hs (ih (fun y hy => step y (List.mem_cons_of_mem x hy)) hxs)

/-- What every step of a fold keeps of its result and its state, the fold keeps. -/
theorem foldlM_rel {R : β × σ → β × σ → Prop} (refl : ∀ p, R p p)
    (trans : ∀ {a b c}, R a b → R b c → R a c) {f : β → α → EStateM ε σ β} {xs : List α}
    (step : ∀ x ∈ xs, ∀ b s b' s', f b x s = .ok b' s' → R (b, s) (b', s')) {b b' : β} {s s' : σ}
    (h : xs.foldlM f b s = .ok b' s') : R (b, s) (b', s') := by
  induction xs generalizing b s with
  | nil =>
    obtain ⟨rfl, rfl⟩ := pure_eq_ok.1 h
    exact refl _
  | cons x xs ih =>
    rw [List.foldlM_cons] at h
    obtain ⟨b₁, s₁, hx, hxs⟩ := bind_eq_ok.1 h
    have hs : R (b, s) (b₁, s₁) := step x (by simp) b s b₁ s₁ hx
    exact trans hs (ih (fun y hy => step y (List.mem_cons_of_mem x hy)) hxs)

/-- What every step of a pass keeps of its results and the state, the pass keeps. -/
theorem mapM_rel {γ : Type} {R : σ → List γ → σ → Prop} (refl : ∀ a, R a [] a)
    (trans : ∀ {a b c cs ds}, R a cs b → R b ds c → R a (cs ++ ds) c) {g : β → List γ}
    {f : α → EStateM ε σ β} {xs : List α} (step : ∀ x ∈ xs, ∀ s b s', f x s = .ok b s' → R s (g b) s')
    {bs : List β} {s s' : σ} (h : xs.mapM f s = .ok bs s') : R s (bs.flatMap g) s' := by
  induction xs generalizing s bs with
  | nil =>
    cases h
    exact refl _
  | cons x xs ih =>
    rw [List.mapM_cons] at h
    obtain ⟨b, s₁, hx, h⟩ := bind_eq_ok.1 h
    obtain ⟨cs, s₂, hxs, hp⟩ := bind_eq_ok.1 h
    cases hp
    rw [List.flatMap_cons]
    exact trans (step x (by simp) s b s₁ hx) (ih (fun y hy => step y (List.mem_cons_of_mem x hy)) hxs)

/-- What holds of all that every step of a pass brings in holds of all that the pass brings in. -/
theorem mapM_forall {γ : Type} {P : γ → Prop} {g : β → List γ} {f : α → EStateM ε σ β} {xs : List α}
    (step : ∀ x ∈ xs, ∀ s b s', f x s = .ok b s' → ∀ c ∈ g b, P c) {bs : List β} {s s' : σ}
    (h : xs.mapM f s = .ok bs s') : ∀ c ∈ bs.flatMap g, P c := by
  refine mapM_rel (R := fun _ cs _ => ∀ c ∈ cs, P c) (fun _ => nofun) ?_ step h
  intro _ _ _ cs ds hc hd c hm
  exact (List.mem_append.1 hm).elim (hc c) (hd c)

/-! ### Work that is broken off -/

section Advances
variable {γ : Type} {R : σ → List γ → σ → Prop}

/-- Wherever a program breaks off it has done the first part of its work, and all of it if it succeeds. -/
def Advances (R : σ → List γ → σ → Prop) (work : List γ) (x : EStateM ε σ α) : Prop :=
  ∀ s, ∃ done, done <+: work ∧ R s done (left (x s)) ∧ ((∃ a s', x s = .ok a s') → done = work)

theorem advances_pure (refl : ∀ s, R s [] s) (a : α) : Advances R [] (pure a : EStateM ε σ α) :=
  fun s => ⟨[], List.prefix_rfl, refl s, fun _ => rfl⟩

theorem advances_throw (refl : ∀ s, R s [] s) (work : List γ) (e : ε) :
    Advances R work (throw e : EStateM ε σ α) := by
  refine fun s => ⟨[], List.nil_prefix, refl s, ?_⟩
  rintro ⟨_, _, h⟩
  exact absurd h throw_ne_ok

variable (trans : ∀ {a b c cs ds}, R a cs b → R b ds c → R a (cs ++ ds) c)
include trans

theorem Advances.bind {as bs : List γ} {x : EStateM ε σ α} {f : α → EStateM ε σ β} (hx : Advances R as x)
    (hf : ∀ s a s', x s = .ok a s' → Advances R bs (f a)) : Advances R (as ++ bs) (x >>= f) := by
  intro s
  obtain ⟨done, hpre, hR, hall⟩ := hx s
  cases hs : x s with
  | ok a s₁ =>
    rw [hs] at hR
    obtain ⟨more, hmore, hR', hall'⟩ := hf s a s₁ hs s₁
    obtain rfl := hall ⟨a, s₁, hs⟩
    have hleft : left ((x >>= f) s) = left (f a s₁) := by
      show left (EStateM.bind x f s) = _
      rw [EStateM.bind, hs]
    refine ⟨done ++ more, (List.prefix_append_right_inj done).2 hmore, hleft ▸ trans hR hR', ?_⟩
    rintro ⟨b, s₂, hb⟩
    obtain ⟨a', s', hs', hb⟩ := bind_eq_ok.1 hb
    cases hs.symm.trans hs'
    rw [hall' ⟨b, s₂, hb⟩]
  | error e s₁ =>
    rw [hs] at hR
    have hleft : left ((x >>= f) s) = s₁ := by
      show left (EStateM.bind x f s) = _
      rw [EStateM.bind, hs]
      rfl
    refine ⟨done, hpre.trans (List.prefix_append as bs), hleft ▸ hR, ?_⟩
    rintro ⟨b, s₂, hb⟩
    obtain ⟨a, s', hs', -⟩ := bind_eq_ok.1 hb
    cases hs.symm.trans hs'

theorem advances_mapM (refl : ∀ s, R s [] s) {g : α → List γ} {f : α → EStateM ε σ β} {xs : List α}
    (step : ∀ x ∈ xs, Advances R (g x) (f x)) : Advances R (xs.flatMap g) (xs.mapM f) := by
  induction xs with
  | nil => exact advances_pure refl []
  | cons x xs ih =>
    have hxs : Advances R (xs.flatMap g) (xs.mapM f) := ih fun y hy => step y (List.mem_cons_of_mem x hy)
    have hrest (b : β) : Advances R (xs.flatMap g) (xs.mapM f >>= fun bs => pure (b :: bs)) := by
      have h := hxs.bind trans (f := fun bs => pure (b :: bs)) fun _ bs _ _ => advances_pure refl (b :: bs)
      rwa [List.append_nil] at h
    rw [List.mapM_cons, List.flatMap_cons]
    exact (step x (by simp)).bind trans fun _ b _ _ => hrest b

end Advances

end Tabulate.Effects
