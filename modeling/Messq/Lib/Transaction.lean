import Messq.Lib.Except

/-! # Transactions

A transaction is a computation over a state that may fail, in which case nothing of it is kept. `run_bind`,
`run_get` and their kin take a run that succeeded apart; `Within R` says that every successful run stays in
the relation `R`, and is closed under sequencing when `R` is a preorder. -/

namespace Messq.Lib

universe u

variable {σ ε α β : Type u} {x : StateT σ (Except ε) α} {a : α} {f : α → StateT σ (Except ε) β} {b : β} {e : ε}
  {s s' t : σ} {R : σ → σ → Prop}

theorem run_bind : (x >>= f) s = .ok (b, s') ↔ ∃ a s₁, x s = .ok (a, s₁) ∧ f a s₁ = .ok (b, s') := by
  show (x s >>= fun p => f p.1 p.2) = .ok (b, s') ↔ _
  rw [bind_eq_ok]
  constructor
  · rintro ⟨⟨a, s₁⟩, hx, hf⟩; exact ⟨a, s₁, hx, hf⟩
  · rintro ⟨a, s₁, hx, hf⟩; exact ⟨(a, s₁), hx, hf⟩

/-- A first step that succeeds. -/
theorem run_bind_ok {s₁ : σ} (h : x s = .ok (a, s₁)) (f : α → StateT σ (Except ε) β) : (x >>= f) s = f a s₁ := by
  show (x s >>= fun p => f p.1 p.2) = _
  rw [h]
  rfl

theorem run_pure {b : α} : (pure a : StateT σ (Except ε) α) s = .ok (b, s') ↔ a = b ∧ s = s' := by
  show Except.ok (a, s) = .ok (b, s') ↔ _
  rw [Except.ok.injEq, Prod.mk.injEq]

theorem run_map {f : α → β} : (f <$> x) s = .ok (b, s') ↔ ∃ a, x s = .ok (a, s') ∧ f a = b := by
  rw [← bind_pure_comp, run_bind]
  constructor
  · rintro ⟨a, s₁, hx, hf⟩
    obtain ⟨rfl, rfl⟩ := run_pure.mp hf
    exact ⟨a, hx, rfl⟩
  · rintro ⟨a, hx, rfl⟩
    exact ⟨a, s', hx, run_pure.mpr ⟨rfl, rfl⟩⟩

theorem run_get {a : σ} : (get : StateT σ (Except ε) σ) s = .ok (a, s') ↔ s = a ∧ s = s' := by
  show Except.ok (s, s) = .ok (a, s') ↔ _
  rw [Except.ok.injEq, Prod.mk.injEq]

/-- Steps that always succeed, in front of others. -/
theorem run_get_bind {f : σ → StateT σ (Except ε) β} : (get >>= f) s = f s s := rfl

theorem run_set_bind {f : PUnit → StateT σ (Except ε) β} : (set t >>= f) s = f ⟨⟩ t := rfl

theorem run_modify_bind {f : PUnit → StateT σ (Except ε) β} {g : σ → σ} : (modify g >>= f) s = f ⟨⟩ (g s) := rfl

theorem run_set {a : PUnit} : (set t : StateT σ (Except ε) PUnit) s = .ok (a, s') ↔ t = s' := by
  show Except.ok (PUnit.unit, t) = .ok (a, s') ↔ _
  rw [Except.ok.injEq, Prod.mk.injEq]
  exact ⟨fun h => h.2, fun h => ⟨rfl, h⟩⟩

theorem run_modify {f : σ → σ} {a : PUnit} : (modify f : StateT σ (Except ε) PUnit) s = .ok (a, s') ↔ f s = s' := by
  show Except.ok (PUnit.unit, f s) = .ok (a, s') ↔ _
  rw [Except.ok.injEq, Prod.mk.injEq]
  exact ⟨fun h => h.2, fun h => ⟨rfl, h⟩⟩

theorem run_ite {c : Prop} [Decidable c] {y : StateT σ (Except ε) α} :
    (if c then x else y) s = if c then x s else y s := by
  split <;> rfl

/-- Every successful run of `x` stays in `R`. -/
def Within (R : σ → σ → Prop) (x : StateT σ (Except ε) α) : Prop := ∀ s a s', x s = .ok (a, s') → R s s'

section Within

theorem Within.pure (hr : ∀ s, R s s) (a : α) : Within R (Pure.pure a : StateT σ (Except ε) α) := by
  intro s b s' h
  obtain ⟨-, rfl⟩ := run_pure.mp h
  exact hr s

theorem Within.get (hr : ∀ s, R s s) : Within R (MonadState.get : StateT σ (Except ε) σ) := by
  intro s b s' h
  obtain ⟨-, rfl⟩ := run_get.mp h
  exact hr s

theorem Within.modify {f : σ → σ} (h : ∀ s, R s (f s)) : Within R (modify f : StateT σ (Except ε) PUnit) := by
  intro s b s' hs
  obtain rfl := run_modify.mp hs
  exact h s

theorem Within.bind (ht : ∀ s₁ s₂ s₃, R s₁ s₂ → R s₂ s₃ → R s₁ s₃) (hx : Within R x) (hf : ∀ a, Within R (f a)) :
    Within R (x >>= f) := by
  intro s b s' h
  obtain ⟨a, s₁, h₁, h₂⟩ := run_bind.mp h
  exact ht _ _ _ (hx _ _ _ h₁) (hf a _ _ _ h₂)

end Within

/-! ## From a given state -/

/-- Every successful run of `x` from `s` stays in `R`. A program that reads the state and writes it back changed is
followed from the state it started in. -/
def WithinAt (R : σ → σ → Prop) (s : σ) (x : StateT σ (Except ε) α) : Prop := ∀ a s', x s = .ok (a, s') → R s s'

section WithinAt

theorem WithinAt.get_bind {f : σ → StateT σ (Except ε) β} (hf : WithinAt R s (f s)) : WithinAt R s (get >>= f) := by
  intro b s' h
  obtain ⟨_, _, hget, h⟩ := run_bind.mp h
  obtain ⟨rfl, rfl⟩ := run_get.mp hget
  exact hf b s' h

theorem WithinAt.set_bind (ht : ∀ s₁ s₂ s₃, R s₁ s₂ → R s₂ s₃ → R s₁ s₃) {f : PUnit → StateT σ (Except ε) β}
    (hr : R s t) (hf : WithinAt R t (f ⟨⟩)) : WithinAt R s (set t >>= f) := by
  intro b s' h
  obtain ⟨_, _, hset, h⟩ := run_bind.mp h
  obtain rfl := run_set.mp hset
  exact ht _ _ _ hr (hf b s' h)

/-- A step that only reads. -/
theorem WithinAt.read_bind (hx : Within Eq x) (hf : ∀ a, WithinAt R s (f a)) : WithinAt R s (x >>= f) := by
  intro b s' h
  obtain ⟨a, _, hrun, h⟩ := run_bind.mp h
  obtain rfl := hx _ _ _ hrun
  exact hf a b s' h

end WithinAt

/-! ## Runs that succeed -/

/-- `x` succeeds from `s`. -/
def Succeeds (x : StateT σ (Except ε) α) (s : σ) : Prop := ∃ a s', x s = .ok (a, s')

theorem Succeeds.bind (hx : Succeeds x s) (hf : ∀ a s', x s = .ok (a, s') → Succeeds (f a) s') :
    Succeeds (x >>= f) s := by
  obtain ⟨a, s₁, h₁⟩ := hx
  obtain ⟨b, s₂, h₂⟩ := hf a s₁ h₁
  exact ⟨b, s₂, run_bind.mpr ⟨a, s₁, h₁, h₂⟩⟩

theorem succeeds_pure (a : α) (s : σ) : Succeeds (pure a : StateT σ (Except ε) α) s := ⟨a, s, rfl⟩

theorem succeeds_get (s : σ) : Succeeds (get : StateT σ (Except ε) σ) s := ⟨s, s, rfl⟩

theorem succeeds_set (t s : σ) : Succeeds (set t : StateT σ (Except ε) PUnit) s := ⟨_, t, rfl⟩

theorem succeeds_modify (f : σ → σ) (s : σ) : Succeeds (modify f : StateT σ (Except ε) PUnit) s := ⟨_, f s, rfl⟩

/-! ## Runs that do not fail in a given way -/

theorem bind_ne_error (hx : x s ≠ .error e) (hf : ∀ a s', x s = .ok (a, s') → f a s' ≠ .error e) :
    (x >>= f) s ≠ .error e := by
  show (x s >>= fun p => f p.1 p.2) ≠ .error e
  cases h : x s with
  | error e' =>
    rw [h] at hx
    exact fun he => hx (congrArg Except.error (Except.error.inj he))
  | ok p => exact hf p.1 p.2 h

theorem map_ne_error {f : α → β} (hx : x s ≠ .error e) : (f <$> x) s ≠ .error e := by
  rw [← bind_pure_comp]
  exact bind_ne_error hx fun _ _ _ => nofun

end Messq.Lib
