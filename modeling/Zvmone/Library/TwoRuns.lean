import Mathlib.Data.List.Forall2
import Zvmone.Library.StateRun

/-! # Two runs side by side

`Tracks Q m m' s t` compares a computation with another one that has a state of its own: whenever
`m` ends normally from `s`, then so does `m'` from `t`, and `Q` relates what they return and the
states they leave. The rules follow the structure of the computations.

Two programs in simulation that question *different* environments take different branches if the
answers differ. If the left program is `Blind` to the difference between the answers, it goes on in
the same way, so the simulation is not left (`Sim.tracks`). -/

namespace StateRun

variable {σ τ ε α β γ δ : Type}

/-- If `m` ends normally from `s`, then `m'` ends normally from `t`, and `Q` relates the values and
the states. -/
def Tracks (Q : α → β → σ → τ → Prop) (m : StateT σ (Except ε) α) (m' : StateT τ (Except ε) β)
    (s : σ) (t : τ) : Prop :=
  ∀ a s', m s = .ok (a, s') → ∃ b t', m' t = .ok (b, t') ∧ Q a b s' t'

/-- A composition whose first part ends normally goes on with the second. -/
theorem bind_of_ok {m : StateT σ (Except ε) α} {f : α → StateT σ (Except ε) β} {s s' : σ} {a : α}
    (h : m s = .ok (a, s')) : (m >>= f) s = f a s' := by
  show (m s >>= fun x => f x.1 x.2) = f a s'
  rw [h]
  rfl

section Tracks

variable {Q : α → β → σ → τ → Prop} {Q' : γ → δ → σ → τ → Prop} {m : StateT σ (Except ε) α}
  {m' : StateT τ (Except ε) β} {s : σ} {t : τ}

/-- Pure computations track each other if their values are related. -/
theorem Tracks.pure {a : α} {b : β} (h : Q a b s t) :
    Tracks Q (pure a : StateT σ (Except ε) α) (pure b : StateT τ (Except ε) β) s t := by
  intro a' s' hrun
  obtain ⟨rfl, rfl⟩ := pure_eq_ok.1 hrun
  exact ⟨b, t, rfl, h⟩

/-- The relation of the results can be weakened. -/
theorem Tracks.mono {Q₁ : α → β → σ → τ → Prop} (h : Tracks Q m m' s t)
    (hQ : ∀ a b s' t', Q a b s' t' → Q₁ a b s' t') : Tracks Q₁ m m' s t := by
  intro a s' hrun
  obtain ⟨b, t', hrun', hab⟩ := h a s' hrun
  exact ⟨b, t', hrun', hQ a b s' t' hab⟩

/-- What is known of the two runs can be used to compare their ends. -/
theorem Tracks.of_runs {Q₁ : α → β → σ → τ → Prop} (h : Tracks Q m m' s t)
    (hQ : ∀ a b s' t', m s = .ok (a, s') → m' t = .ok (b, t') → Q a b s' t' → Q₁ a b s' t') :
    Tracks Q₁ m m' s t := by
  intro a s' hrun
  obtain ⟨b, t', hrun', hab⟩ := h a s' hrun
  exact ⟨b, t', hrun', hQ a b s' t' hrun hrun' hab⟩

/-- Compositions are compared part by part; the second parts start where the first ones end. -/
theorem Tracks.bind {f : α → StateT σ (Except ε) γ} {f' : β → StateT τ (Except ε) δ}
    (h : Tracks Q m m' s t)
    (hf : ∀ a b s' t', m s = .ok (a, s') → m' t = .ok (b, t') → Q a b s' t' →
      Tracks Q' (f a) (f' b) s' t') : Tracks Q' (m >>= f) (m' >>= f') s t := by
  intro c s₂ hrun
  obtain ⟨a, s₁, hm, hrest⟩ := bind_eq_ok.1 hrun
  obtain ⟨b, t₁, hm', hab⟩ := h a s₁ hm
  obtain ⟨d, t₂, hrest', hcd⟩ := hf a b s₁ t₁ hm hm' hab c s₂ hrest
  exact ⟨d, t₂, bind_eq_ok.2 ⟨b, t₁, hm', hrest'⟩, hcd⟩

/-- Branches track each other if their conditions agree. -/
theorem Tracks.ite {c c' : Prop} [Decidable c] [Decidable c'] {m₁ : StateT σ (Except ε) α}
    {m₁' : StateT τ (Except ε) β} (hc : c ↔ c') (h : c → Tracks Q m m' s t)
    (h₁ : ¬ c → Tracks Q m₁ m₁' s t) :
    Tracks Q (if c then m else m₁) (if c' then m' else m₁') s t := by
  by_cases hcond : c
  · rw [if_pos hcond, if_pos (hc.1 hcond)]
    exact h hcond
  · rw [if_neg hcond, if_neg (mt hc.2 hcond)]
    exact h₁ hcond

/-- Reading both states. -/
theorem Tracks.get {Q : σ → τ → σ → τ → Prop} (h : Q s t s t) :
    Tracks Q (get : StateT σ (Except ε) σ) (get : StateT τ (Except ε) τ) s t := by
  intro a s' hrun
  obtain ⟨rfl, rfl⟩ := get_eq_ok.1 hrun
  exact ⟨t, t, get_eq_ok.2 ⟨rfl, rfl⟩, h⟩

/-- Updating both states. -/
theorem Tracks.modify {Q : PUnit → PUnit → σ → τ → Prop} {f : σ → σ} {f' : τ → τ}
    (h : Q ⟨⟩ ⟨⟩ (f s) (f' t)) :
    Tracks Q (modify f : StateT σ (Except ε) PUnit) (modify f' : StateT τ (Except ε) PUnit) s t := by
  intro a s' hrun
  obtain rfl := modify_eq_ok.1 hrun
  exact ⟨⟨⟩, f' t, modify_eq_ok.2 rfl, h⟩

/-- A value that does not depend on the state. -/
theorem Tracks.lift {Q : α → α → σ → τ → Prop} {x : Except ε α} (h : ∀ a, x = .ok a → Q a a s t) :
    Tracks Q (liftM x : StateT σ (Except ε) α) (liftM x : StateT τ (Except ε) α) s t := by
  intro a s' hrun
  obtain ⟨hx, rfl⟩ := lift_eq_ok.1 hrun
  exact ⟨a, t, lift_eq_ok.2 ⟨hx, rfl⟩, h a hx⟩

/-- Loops over one list with bodies that keep a relation between the states. -/
theorem Tracks.forM {R : σ → τ → Prop} {f : γ → StateT σ (Except ε) PUnit}
    {f' : γ → StateT τ (Except ε) PUnit}
    (h : ∀ x s t, R s t → Tracks (fun _ _ => R) (f x) (f' x) s t) (xs : List γ) (hR : R s t) :
    Tracks (fun _ _ => R) (xs.forM f) (xs.forM f') s t := by
  induction xs generalizing s t with
  | nil => exact .pure hR
  | cons x xs ih => exact .bind (h x s t hR) fun _ _ _ _ _ _ hR' => ih hR'

end Tracks

end StateRun

namespace Interaction

open StateRun

variable {Query : Type} {Answer : Query → Type} {ε α β σ τ : Type}

/-! ### Programs that do not tell answers apart -/

/-- The program goes on in the same way for answers that are related by `V`. -/
def Blind (V : (q : Query) → Answer q → Answer q → Prop) : Interaction Answer ε α → Prop
  | .ret _ => True
  | .fail _ => True
  | .ask q k => (∀ r r', V q r r' → k r = k r') ∧ ∀ r, (k r).Blind V

section Blind

variable {V : (q : Query) → Answer q → Answer q → Prop}

/-- Blindness composes. -/
theorem Blind.bind {p : Interaction Answer ε α} {f : α → Interaction Answer ε β} (hp : p.Blind V)
    (hf : ∀ a, (f a).Blind V) : (p >>= f).Blind V := by
  induction p with
  | ret a => exact hf a
  | fail e => trivial
  | ask q k ih =>
    rw [ask_bind]
    refine ⟨fun r r' hr => ?_, fun r => ih r (hp.2 r)⟩
    show (k r >>= f) = (k r' >>= f)
    rw [hp.1 r r' hr]

/-- A program is blind if it only asks queries with one answer up to `V`. -/
theorem Asks.blind {allowed : Query → Prop} {p : Interaction Answer ε α} (hp : p.Asks allowed)
    (hV : ∀ q, allowed q → ∀ r r', V q r r' → r = r') : p.Blind V := by
  induction p with
  | ret a => trivial
  | fail e => trivial
  | ask q k ih => exact ⟨fun r r' hr => by rw [hV q hp.1 r r' hr], fun r => ih r (hp.2 r)⟩

end Blind

/-! ### One program in an environment -/

section

variable {env : Env Answer ε σ} {p : Interaction Answer ε α} {s s' : σ} {a : α}

/-- A program that keeps a contract reaches only queries that it permits, in an environment that
keeps the contract too. -/
theorem wp_reaches {C : Contract Answer ε Unit} {Q : α → Unit → Prop} {q : Query}
    (henv : ∀ q s r s', C.pre () q → env q s = .ok (r, s') → C.post () q r ())
    (hp : wp C p () Q) (h : Reaches env p s q s') : C.pre () q := by
  induction h with
  | here => exact hp.1
  | later hq _ ih => exact ih (hp.2 _ () (henv _ _ _ _ hp.1 hq))

/-- An invariant of the environment along the queries of a run holds at its end. -/
theorem invariant_of_reaches {I : σ → Prop}
    (henv : ∀ q s₁ r s₂, Reaches env p s q s₁ → I s₁ → env q s₁ = .ok (r, s₂) → I s₂)
    (hs : I s) (hrun : run env p s = .ok (a, s')) : I s' := by
  have hpreorder : IsPreorder σ fun s s' => I s → I s' :=
    { refl := fun _ => id, trans := fun _ _ _ h h' => h' ∘ h }
  exact rel_of_reaches (R := fun s s' => I s → I s')
    (fun q s₁ r s₂ hreach hq h => henv q s₁ r s₂ hreach h hq) hrun hs

/-- The same, with what the program makes of the answers. -/
theorem run_invariant {K : (q : Query) → Answer q → Prop} {P : α → Prop} {I : σ → Prop}
    (hp : wp (.answers ε K) p () fun a _ => P a)
    (henv : ∀ q s₁ r s₂, Reaches env p s q s₁ → I s₁ → env q s₁ = .ok (r, s₂) → K q r ∧ I s₂)
    (hs : I s) (hrun : run env p s = .ok (a, s')) : P a ∧ I s' := by
  induction p generalizing s with
  | ret b =>
    obtain ⟨rfl, rfl⟩ : b = a ∧ s = s' := by simpa using hrun
    exact ⟨hp, hs⟩
  | fail e => simp at hrun
  | ask q k ih =>
    cases hq : env q s with
    | error e => rw [run_ask_error hq] at hrun; cases hrun
    | ok x =>
      obtain ⟨r, s₁⟩ := x
      rw [run_ask_ok hq] at hrun
      obtain ⟨hr, hs₁⟩ := henv q s r s₁ .here hs hq
      exact ih r (hp.2 r () hr) (fun q' s₂ r' s₃ hreach => henv q' s₂ r' s₃ (.later hq hreach)) hs₁
        hrun

end

/-- The queries that a run asks, each with the state in which it is asked. -/
def queries (env : Env Answer ε σ) : Interaction Answer ε α → σ → List (Query × σ)
  | .ret _, _ => []
  | .fail _, _ => []
  | .ask q k, s => (q, s) ::
    match env q s with
    | .error _ => []
    | .ok (r, s') => (k r).queries env s'

/-- All queries that are reached are among them. -/
theorem Reaches.mem_queries {env : Env Answer ε σ} {p : Interaction Answer ε α} {s s' : σ}
    {q : Query} (h : Reaches env p s q s') : (q, s') ∈ p.queries env s := by
  induction h with
  | here =>
    rw [queries]
    exact List.mem_cons_self
  | later hq _ ih =>
    simp only [queries, hq]
    exact List.mem_cons_of_mem _ ih

/-! ### Simulation in two environments -/

/-- What the two programs return in any case. -/
theorem Sim.and_returns {K : (q : Query) → Answer q → Prop} {P P₁ : α → Prop} {F F₁ : β → Prop}
    {Q : α → β → Prop} {p : Interaction Answer ε α} {p' : Interaction Answer ε β}
    (h : Sim K P F Q p p') (hp : p.Returns P₁) (hp' : p'.Returns F₁) :
    Sim K (fun a => P a ∧ P₁ a) (fun b => F b ∧ F₁ b) (fun a b => Q a b ∧ P₁ a ∧ F₁ b) p p' := by
  induction h with
  | ret h => exact .ret ⟨h, hp, hp'⟩
  | ask _ ih => exact .ask fun r hr => ih r hr (hp r) (hp' r)
  | early h hb => exact .early (wp_returns h hp) ⟨hb, hp'⟩

/-- Programs in simulation, the left one blind to the differences between the answers of two
environments, stay in simulation when each questions its own environment. The answers are compared
while both programs run (`hstep`); once the right one has given up, the left one is alone and only
keeps the weaker relation `R₀` (`halone`). -/
theorem Sim.tracks {K : (q : Query) → Answer q → Prop} {P : α → Prop} {F : β → Prop}
    {Q : α → β → Prop} {V : (q : Query) → Answer q → Answer q → Prop} {R R₀ : σ → τ → Prop}
    {env : Env Answer ε σ} {env' : Env Answer ε τ} {p : Interaction Answer ε α}
    {p' : Interaction Answer ε β} {s : σ} {t : τ} (h : Sim K P F Q p p') (hblind : p.Blind V)
    (hstep : ∀ q s₁ t₁, Reaches env p s q s₁ → R s₁ t₁ →
      Tracks (fun r r' s₂ t₂ => V q r r' ∧ K q r' ∧ R s₂ t₂) (env q) (env' q) s₁ t₁)
    (hearly : ∀ s₁ t₁, R s₁ t₁ → R₀ s₁ t₁)
    (halone : ∀ q s₁ t₁ r s₂, Reaches env p s q s₁ → R₀ s₁ t₁ → env q s₁ = .ok (r, s₂) →
      K q r ∧ R₀ s₂ t₁)
    (hR : R s t) :
    Tracks (fun a b s' t' => Q a b ∧ R s' t' ∨ P a ∧ F b ∧ R₀ s' t') (run env p) (run env' p')
      s t := by
  induction h generalizing s t with
  | @ret a b hab =>
    intro c s' hrun
    obtain ⟨rfl, rfl⟩ : a = c ∧ s = s' := by simpa using hrun
    exact ⟨b, t, rfl, .inl ⟨hab, hR⟩⟩
  | @ask q k k' _ ih =>
    intro c s' hrun
    cases hq : env q s with
    | error e => rw [run_ask_error hq] at hrun; cases hrun
    | ok x =>
      obtain ⟨r, s₁⟩ := x
      rw [run_ask_ok hq] at hrun
      obtain ⟨r', t₁, hq', hV, hK, hR'⟩ := hstep q s t .here hR r s₁ hq
      -- The left program does not notice that it is answered differently.
      have hsame : k r = k r' := hblind.1 r r' hV
      have hlater : ∀ q' s₂, Reaches env (k r') s₁ q' s₂ → Reaches env (.ask q k) s q' s₂ :=
        fun q' s₂ hreach => .later hq (hsame ▸ hreach)
      rw [hsame] at hrun
      obtain ⟨d, t', hrun', hcd⟩ := ih r' hK (hblind.2 r')
        (fun q' s₂ t₂ hreach => hstep q' s₂ t₂ (hlater q' s₂ hreach))
        (fun q' s₂ t₂ r₂ s₃ hreach => halone q' s₂ t₂ r₂ s₃ (hlater q' s₂ hreach)) hR' c s' hrun
      exact ⟨d, t', by rw [run_ask_ok hq', hrun'], hcd⟩
  | @early p b hp hb =>
    intro c s' hrun
    obtain ⟨hc, hR'⟩ := run_invariant (I := fun s₁ => R₀ s₁ t) hp
      (fun q s₁ r s₂ hreach h₀ hq => halone q s₁ t r s₂ hreach h₀ hq) (hearly s t hR) hrun
    exact ⟨b, t, rfl, .inr ⟨hc, hb, hR'⟩⟩

end Interaction
