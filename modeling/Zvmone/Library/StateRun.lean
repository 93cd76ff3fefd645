import Zvmone.Library.Interaction
import Mathlib.Order.Defs.Unbundled

/-! # Computations on a state that may stop

Inversion of `StateT σ (Except ε)` computations that end normally, and relations between the states
before and after that every step keeps (`Keeps`). The relations are preorders, so keeping one is
closed under sequential composition and under running a program against an environment. A fault that
no step stops with is avoided by the whole computation (`Avoids`), and steps that agree unless they
stop with a fault make up computations that agree unless they stop with it (`Extends`). -/

namespace StateRun

variable {σ ε α β : Type}

/-! ### Inversion -/

/-- A pure computation returns its value and keeps the state. -/
@[simp] theorem pure_eq_ok {a b : α} {s s' : σ} :
    (pure a : StateT σ (Except ε) α) s = .ok (b, s') ↔ a = b ∧ s = s' := by
  change Except.ok (a, s) = .ok (b, s') ↔ _
  rw [Except.ok.injEq, Prod.mk.injEq]

/-- The value of a computation that may stop. -/
theorem toOption_eq_some {x : Except ε α} {a : α} : x.toOption = some a ↔ x = .ok a := by
  cases x with
  | error e => exact ⟨nofun, nofun⟩
  | ok b => exact ⟨fun h => congrArg Except.ok (Option.some.inj h), fun h => by cases h; rfl⟩

/-- A composition ends normally exactly when both parts do. -/
@[simp] theorem bind_eq_ok {m : StateT σ (Except ε) α} {f : α → StateT σ (Except ε) β}
    {s s' : σ} {b : β} :
    (m >>= f) s = .ok (b, s') ↔ ∃ a s₁, m s = .ok (a, s₁) ∧ f a s₁ = .ok (b, s') := by
  simp only [bind, StateT.bind, Except.bind]
  cases h : m s with
  | error e => simp
  | ok x =>
    obtain ⟨a, s₁⟩ := x
    simp

/-- A composition stops with a fault if one of its parts does. -/
theorem bind_eq_error {m : StateT σ (Except ε) α} {f : α → StateT σ (Except ε) β} {s : σ} {e : ε} :
    (m >>= f) s = .error e ↔
      m s = .error e ∨ ∃ a s₁, m s = .ok (a, s₁) ∧ f a s₁ = .error e := by
  simp only [bind, StateT.bind, Except.bind]
  cases h : m s with
  | error e' => simp
  | ok x =>
    obtain ⟨a, s₁⟩ := x
    simp

/-- Mapping over a computation keeps the state it ends in. -/
@[simp] theorem map_eq_ok {m : StateT σ (Except ε) α} {f : α → β} {s s' : σ} {b : β} :
    (f <$> m) s = .ok (b, s') ↔ ∃ a, m s = .ok (a, s') ∧ f a = b := by
  rw [map_eq_pure_bind, bind_eq_ok]
  simp only [pure_eq_ok]
  constructor
  · rintro ⟨a, s₁, h, rfl, rfl⟩
    exact ⟨a, h, rfl⟩
  · rintro ⟨a, h, rfl⟩
    exact ⟨a, s', h, rfl, rfl⟩

/-- A branch runs one of its sides. -/
@[simp] theorem ite_eq_ok {c : Prop} [Decidable c] {m m' : StateT σ (Except ε) α} {s s' : σ}
    {a : α} : (if c then m else m') s = .ok (a, s') ↔
      c ∧ m s = .ok (a, s') ∨ ¬ c ∧ m' s = .ok (a, s') := by
  split <;> simp_all

/-- Reading the state returns it. -/
@[simp] theorem get_eq_ok {s s' a : σ} :
    (get : StateT σ (Except ε) σ) s = .ok (a, s') ↔ a = s ∧ s' = s := by
  simp [get, getThe, MonadStateOf.get, StateT.get, pure, Except.pure, eq_comm]

/-- Updating the state returns nothing. -/
@[simp] theorem modify_eq_ok {f : σ → σ} {s s' : σ} {u : PUnit} :
    (modify f : StateT σ (Except ε) PUnit) s = .ok (u, s') ↔ s' = f s := by
  simp [modify, modifyGet, MonadStateOf.modifyGet, StateT.modifyGet, pure, Except.pure, eq_comm]

/-- A computation without the state keeps it. -/
@[simp] theorem lift_eq_ok {x : Except ε α} {s s' : σ} {a : α} :
    (liftM x : StateT σ (Except ε) α) s = .ok (a, s') ↔ x = .ok a ∧ s' = s := by
  cases x with
  | error e => simp [liftM, monadLift, MonadLift.monadLift, StateT.lift, bind, Except.bind]
  | ok b =>
    simp [liftM, monadLift, MonadLift.monadLift, StateT.lift, bind, Except.bind, pure, Except.pure,
      eq_comm]

/-! ### Relations that every step keeps -/

/-- Whenever the computation ends normally, the states before and after it are related. -/
def Keeps (R : σ → σ → Prop) (m : StateT σ (Except ε) α) : Prop :=
  ∀ s a s', m s = .ok (a, s') → R s s'

section Keeps

variable {R : σ → σ → Prop} [IsPreorder σ R]

/-- A pure computation keeps every reflexive relation. -/
theorem Keeps.pure (a : α) : Keeps R (pure a : StateT σ (Except ε) α) := by
  intro s b s' h
  obtain ⟨-, rfl⟩ := pure_eq_ok.1 h
  exact refl s

/-- Keeping a relation is closed under composition. -/
theorem Keeps.bind {m : StateT σ (Except ε) α} {f : α → StateT σ (Except ε) β} (hm : Keeps R m)
    (hf : ∀ a, Keeps R (f a)) : Keeps R (m >>= f) := by
  intro s b s' h
  obtain ⟨a, s₁, h₁, h₂⟩ := bind_eq_ok.1 h
  exact Trans.trans (hm s a s₁ h₁) (hf a s₁ b s' h₂)

/-- A program keeps a relation that the answers to its queries keep. -/
theorem Keeps.run_of_asks {Query : Type} {Answer : Query → Type}
    {env : Interaction.Env Answer ε σ} {allowed : Query → Prop}
    (henv : ∀ q, allowed q → Keeps R (env q)) {p : Interaction Answer ε α}
    (hp : p.Asks allowed) : Keeps R (Interaction.run env p) := by
  induction p with
  | ret a => exact .pure a
  | fail e => intro s a s' h; simp at h
  | ask q k ih =>
    intro s a s' h
    cases hq : env q s with
    | error e => rw [Interaction.run_ask_error hq] at h; cases h
    | ok x =>
      obtain ⟨r, s₁⟩ := x
      rw [Interaction.run_ask_ok hq] at h
      exact Trans.trans (henv q hp.1 s r s₁ hq) (ih r (hp.2 r) s₁ a s' h)

/-- A run keeps a relation that every answer it gets keeps. -/
theorem rel_of_reaches {Query : Type} {Answer : Query → Type} {env : Interaction.Env Answer ε σ}
    {p : Interaction Answer ε α} {s s' : σ} {a : α}
    (henv : ∀ q s₁ r s₂, Interaction.Reaches env p s q s₁ → env q s₁ = .ok (r, s₂) → R s₁ s₂)
    (hrun : Interaction.run env p s = .ok (a, s')) : R s s' := by
  induction p generalizing s with
  | ret b =>
    obtain ⟨-, rfl⟩ : b = a ∧ s = s' := by simpa using hrun
    exact refl s
  | fail e => simp at hrun
  | ask q k ih =>
    cases hq : env q s with
    | error e => rw [Interaction.run_ask_error hq] at hrun; cases hrun
    | ok x =>
      obtain ⟨r, s₁⟩ := x
      rw [Interaction.run_ask_ok hq] at hrun
      refine Trans.trans (henv q s r s₁ .here hq) (ih r (fun q' s₂ r' s₃ hreaches => ?_) hrun)
      exact henv q' s₂ r' s₃ (.later hq hreaches)

end Keeps

/-! ### Faults -/

/-- Started in the state `s`, the computation does not stop with the fault `e`. -/
def Avoids (e : ε) (m : StateT σ (Except ε) α) (s : σ) : Prop := m s ≠ .error e

/-- Started in the state `s`, the computations do the same unless `m` stops with the fault `e`. -/
def Extends (e : ε) (m m' : StateT σ (Except ε) α) (s : σ) : Prop := m s ≠ .error e → m' s = m s

section Faults

variable {e : ε} {s : σ}

/-- A computation that returns avoids every fault. -/
theorem Avoids.of_ok {m : StateT σ (Except ε) α} {x : α × σ} (h : m s = .ok x) : Avoids e m s := by
  intro herror
  rw [h] at herror
  cases herror

/-- A pure computation avoids every fault. -/
theorem Avoids.pure (a : α) : Avoids e (pure a : StateT σ (Except ε) α) s := .of_ok rfl

/-- A lifted computation avoids the faults it does not stop with. -/
theorem Avoids.lift {x : Except ε α} (h : x ≠ .error e) :
    Avoids e (liftM x : StateT σ (Except ε) α) s := by
  cases x with
  | ok a => exact .of_ok (x := (a, s)) rfl
  | error e' => exact fun herror => h (congrArg Except.error (Except.error.inj herror))

/-- A composition avoids a fault if both parts do. -/
theorem Avoids.bind {m : StateT σ (Except ε) α} {f : α → StateT σ (Except ε) β}
    (hm : Avoids e m s) (hf : ∀ a s', m s = .ok (a, s') → Avoids e (f a) s') :
    Avoids e (m >>= f) s := by
  unfold Avoids at hm ⊢
  simp only [Bind.bind, StateT.bind, Except.bind]
  cases h : m s with
  | error e' =>
    rw [h] at hm
    exact fun heq => hm (congrArg Except.error (Except.error.inj heq))
  | ok x => exact hf x.1 x.2 h

/-- A branch avoids a fault if both sides do, each under its condition. -/
theorem Avoids.ite {c : Prop} [Decidable c] {m m' : StateT σ (Except ε) α} (h : c → Avoids e m s)
    (h' : ¬ c → Avoids e m' s) : Avoids e (if c then m else m') s := by
  split
  next hc => exact h hc
  next hc => exact h' hc

/-- A computation extends itself. -/
theorem Extends.refl (m : StateT σ (Except ε) α) : Extends e m m s := fun _ => rfl

/-- Compositions of parts that agree agree. -/
theorem Extends.bind {m m' : StateT σ (Except ε) α} {f f' : α → StateT σ (Except ε) β}
    (hm : Extends e m m' s) (hf : ∀ a s', Extends e (f a) (f' a) s') :
    Extends e (m >>= f) (m' >>= f') s := by
  unfold Extends at hm ⊢
  simp only [Bind.bind, StateT.bind, Except.bind]
  cases h : m s with
  | error e' =>
    rw [h] at hm
    intro hne
    have hne' : (Except.error e' : Except ε (α × σ)) ≠ .error e := fun heq =>
      hne (congrArg Except.error (Except.error.inj heq))
    rw [hm hne']
  | ok x =>
    rw [h] at hm
    intro hne
    rw [hm nofun]
    exact hf x.1 x.2 hne

/-- A branch extends another one with the same condition, side by side. -/
theorem Extends.ite {c : Prop} [Decidable c] {m₁ m₁' m₂ m₂' : StateT σ (Except ε) α}
    (h₁ : Extends e m₁ m₁' s) (h₂ : Extends e m₂ m₂' s) :
    Extends e (if c then m₁ else m₂) (if c then m₁' else m₂') s := by
  split
  · exact h₁
  · exact h₂

end Faults

end StateRun
