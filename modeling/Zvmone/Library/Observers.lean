import Zvmone.Library.StateRun

/-! # Programs that notify an observer

A program may also *notify* an observer of events: `Interaction (Heard Answer Event) ε α` asks the
queries of `Interaction Answer ε α`, and an event is one more query, whose answer says nothing. An
observer is a state machine that takes events and may stop with a fault. It runs beside the
environment (`watched`), in which a query may again lead to events.

`Tells Good m m' s` says that watching changes nothing: from the state `s`, the watched computation
`m'` does what `m` does, for every observer, once the observer has taken the events that `m'` notifies
it of. If `m` ends normally, the events are `Good`. The rules follow the structure of the
computations. -/

namespace Interaction

variable {Query Event : Type} {Answer : Query → Type} {ε α β σ τ : Type}

/-! ### Notifications -/

/-- The answers to the queries of a program that also notifies an observer. -/
abbrev Heard (Answer : Query → Type) (Event : Type) : Query ⊕ Event → Type
  | .inl q => Answer q
  | .inr _ => Unit

/-- Notify the observer of an event. -/
def notify (event : Event) : Interaction (Heard Answer Event) ε Unit :=
  .ask (.inr event) .ret

/-- A program that never notifies the observer. -/
def silent : Interaction Answer ε α → Interaction (Heard Answer Event) ε α
  | .ret a => .ret a
  | .fail e => .fail e
  | .ask q k => .ask (.inl q) fun r => silent (k r)

/-- What takes events. -/
abbrev Observer (Event ε τ : Type) := Event → τ → Except ε τ

/-- The observer takes events one after the other. -/
def Observer.take (observer : Observer Event ε τ) : List Event → τ → Except ε τ
  | [], t => .ok t
  | event :: events, t =>
    match observer event t with
    | .error e => .error e
    | .ok t' => observer.take events t'

/-- The environment of a program that notifies the observer: its state has the state of the observer
as the second part. -/
def watched (env : Env Answer ε (σ × τ)) (observer : Observer Event ε τ) :
    Env (Heard Answer Event) ε (σ × τ)
  | .inl q, s => env q s
  | .inr event, s =>
    match observer event s.2 with
    | .error e => .error e
    | .ok t => .ok ((), (s.1, t))

/-- The first event is taken first. -/
theorem Observer.take_cons {observer : Observer Event ε τ} {event : Event} {t t' : τ}
    (h : observer event t = .ok t') (events : List Event) :
    observer.take (event :: events) t = observer.take events t' := by
  rw [Observer.take, h]

/-- Events are taken in order. -/
theorem Observer.take_append (observer : Observer Event ε τ) (events events' : List Event) (t : τ) :
    observer.take (events ++ events') t =
      match observer.take events t with
      | .error e => .error e
      | .ok t' => observer.take events' t' := by
  induction events generalizing t with
  | nil => rfl
  | cons event events ih =>
    rw [List.cons_append, Observer.take, Observer.take]
    cases observer event t with
    | error e => rfl
    | ok t' => exact ih t'

/-- The observer that keeps the events, in order. -/
def recorder : Observer Event ε (List Event) := fun event events => .ok (events ++ [event])

/-- The recorder appends the events. -/
theorem take_recorder (events recorded : List Event) :
    (recorder : Observer Event ε (List Event)).take events recorded = .ok (recorded ++ events) := by
  induction events generalizing recorded with
  | nil => rw [Observer.take, List.append_nil]
  | cons event events ih =>
    rw [Observer.take_cons rfl, ih, List.append_assoc, List.singleton_append]

end Interaction

namespace StateRun

open Interaction

variable {Event ε α β σ τ : Type}

/-- The computation on the first part of the state. -/
def onFirst (m : StateT σ (Except ε) α) : StateT (σ × τ) (Except ε) α := fun s =>
  match m s.1 with
  | .error e => .error e
  | .ok (a, s') => .ok (a, (s', s.2))

/-- A computation beside an observer, whatever the observer is. -/
abbrev Watching (Event ε σ α : Type) :=
  ∀ τ : Type, Observer Event ε τ → StateT (σ × τ) (Except ε) α

/-- `m'` from `(s, t)`, for every observer and state `t` of it: the observer takes the events, and
then the computation does what `m` does. -/
def TellsOf (events : List Event) (m : StateT σ (Except ε) α) (m' : Watching Event ε σ α) (s : σ) :
    Prop :=
  ∀ (τ : Type) (observer : Observer Event ε τ) (t : τ), m' τ observer (s, t) =
    match observer.take events t with
    | .error e => .error e
    | .ok t' => onFirst m (s, t')

/-- Watching changes nothing, and if `m` ends normally, then the events are `Good`. -/
def Tells (Good : α → σ → List Event → Prop) (m : StateT σ (Except ε) α)
    (m' : Watching Event ε σ α) (s : σ) : Prop :=
  ∃ events, TellsOf events m m' s ∧ ∀ a s', m s = .ok (a, s') → Good a s' events

section Tells

variable {Good : α → σ → List Event → Prop} {Good' : β → σ → List Event → Prop}
  {m : StateT σ (Except ε) α} {m' : Watching Event ε σ α} {s : σ}

/-- A computation on the first component keeps the second. -/
theorem onFirst_of_ok {a : α} {s' : σ} (h : m s = .ok (a, s')) (t : τ) :
    onFirst m (s, t) = .ok (a, (s', t)) := by
  unfold onFirst
  rw [h]

/-- A fault on the first component is the fault of the whole. -/
theorem onFirst_of_error {e : ε} (h : m s = .error e) (t : τ) :
    onFirst m (s, t) = .error e := by
  unfold onFirst
  rw [h]

/-- Equal runs give equal runs on the first component. -/
theorem onFirst_congr {m₁ : StateT σ (Except ε) α} {s₁ : σ} (h : m s = m₁ s₁) (t : τ) :
    onFirst m (s, t) = onFirst m₁ (s₁, t) := by
  unfold onFirst
  simp only [h]

/-- When the observer can take the events, the computation ends as it does without the observer. -/
theorem TellsOf.ok_iff {events : List Event} (h : TellsOf events m m' s)
    {observer : Observer Event ε τ} {t t' t₁ : τ} (htake : observer.take events t = .ok t') {a : α}
    {s' : σ} : m' τ observer (s, t) = .ok (a, (s', t₁)) ↔ m s = .ok (a, s') ∧ t₁ = t' := by
  rw [h τ observer t, htake]
  cases hrun : m s with
  | error e =>
    simp only [onFirst_of_error hrun]
    exact iff_of_false nofun fun hok => by cases hok.1
  | ok x =>
    obtain ⟨b, s₁⟩ := x
    simp only [onFirst_of_ok hrun, Except.ok.injEq, Prod.mk.injEq]
    constructor
    · rintro ⟨rfl, rfl, rfl⟩
      exact ⟨⟨rfl, rfl⟩, rfl⟩
    · rintro ⟨⟨rfl, rfl⟩, rfl⟩
      exact ⟨rfl, rfl, rfl⟩

/-- A computation that stops with a fault does so in any company. -/
theorem TellsOf.not_ok {events : List Event} (h : TellsOf events m m' s) {e : ε}
    (hm : m s = .error e) (observer : Observer Event ε τ) (t : τ) (x : α × σ × τ) :
    m' τ observer (s, t) ≠ .ok x := by
  rw [h τ observer t]
  cases observer.take events t with
  | error e' => exact nofun
  | ok t' =>
    simp only [onFirst_of_error hm]
    exact nofun

/-- A computation that does not notify the observer. -/
theorem Tells.onFirst (h : ∀ a s', m s = .ok (a, s') → Good a s' []) :
    Tells Good m (fun _ _ => onFirst m) s :=
  ⟨[], fun _ _ _ => rfl, h⟩

/-- A pure computation tells nothing. -/
theorem Tells.pure {a : α} (h : Good a s []) :
    Tells Good (pure a : StateT σ (Except ε) α) (fun _ _ => pure a) s := by
  refine ⟨[], fun _ _ _ => rfl, ?_⟩
  intro b s' hrun
  obtain ⟨rfl, rfl⟩ := pure_eq_ok.1 hrun
  exact h

/-- What is said of the events can be weakened, for runs that end. -/
theorem Tells.mono (h : Tells Good m m' s) {Good₁ : α → σ → List Event → Prop}
    (hgood : ∀ a s' events, m s = .ok (a, s') → Good a s' events → Good₁ a s' events) :
    Tells Good₁ m m' s := by
  obtain ⟨events, htells, hevents⟩ := h
  exact ⟨events, htells, fun a s' hrun => hgood a s' events hrun (hevents a s' hrun)⟩

/-- Telling depends only on what the computations do. -/
theorem Tells.congr {m₁ : StateT σ (Except ε) α} {m₁' : Watching Event ε σ α} (h : Tells Good m m' s)
    (hm : m s = m₁ s) (hm' : ∀ τ observer t, m' τ observer (s, t) = m₁' τ observer (s, t)) :
    Tells Good m₁ m₁' s := by
  obtain ⟨events, htells, hevents⟩ := h
  refine ⟨events, fun τ observer t => ?_, fun a s' hrun => hevents a s' (hm.trans hrun)⟩
  rw [← hm' τ observer t, htells τ observer t]
  cases observer.take events t with
  | error e => rfl
  | ok t' => exact onFirst_congr hm t'

/-- In a composition the events of the second part follow those of the first. -/
theorem Tells.bind {f : α → StateT σ (Except ε) β} {f' : α → Watching Event ε σ β}
    (h : Tells Good m m' s)
    (hf : ∀ a s₁ events, m s = .ok (a, s₁) → Good a s₁ events →
      Tells (fun b s₂ events' => Good' b s₂ (events ++ events')) (f a) (f' a) s₁) :
    Tells Good' (m >>= f) (fun τ observer => m' τ observer >>= fun a => f' a τ observer) s := by
  obtain ⟨events, htells, hevents⟩ := h
  cases hrun : m s with
  | error e =>
    -- The composition stops where its first part does.
    refine ⟨events, fun τ observer t => ?_, fun b s₂ hok => ?_⟩
    · show (m' τ observer (s, t) >>= fun x => f' x.1 τ observer x.2) = _
      rw [htells τ observer t]
      cases observer.take events t with
      | error e' => rfl
      | ok t' =>
        have hcomposed : (m >>= f) s = .error e := bind_eq_error.2 (.inl hrun)
        simp only [onFirst_of_error hrun, onFirst_of_error hcomposed]
        rfl
    · obtain ⟨a, s₁, hm, -⟩ := bind_eq_ok.1 hok
      rw [hrun] at hm
      cases hm
  | ok x =>
    obtain ⟨a, s₁⟩ := x
    obtain ⟨events', htells', hevents'⟩ := hf a s₁ events hrun (hevents a s₁ hrun)
    have hcomposed : (m >>= f) s = f a s₁ := by
      show (m s >>= fun x => f x.1 x.2) = f a s₁
      rw [hrun]
      rfl
    refine ⟨events ++ events', fun τ observer t => ?_, fun b s₂ hok => ?_⟩
    · show (m' τ observer (s, t) >>= fun x => f' x.1 τ observer x.2) = _
      rw [htells τ observer t, observer.take_append]
      cases observer.take events t with
      | error e' => rfl
      | ok t' =>
        simp only [onFirst_of_ok hrun]
        refine (htells' τ observer t').trans ?_
        cases observer.take events' t' with
        | error e => rfl
        | ok t₂ => exact (onFirst_congr hcomposed t₂).symm
    · rw [hcomposed] at hok
      exact hevents' b s₂ hok

/-- A branch tells what its side tells. -/
theorem Tells.ite {c : Prop} [Decidable c] {m₁ : StateT σ (Except ε) α} {m₁' : Watching Event ε σ α}
    (h : c → Tells Good m m' s) (h₁ : ¬ c → Tells Good m₁ m₁' s) :
    Tells Good (if c then m else m₁) (fun τ observer => if c then m' τ observer else m₁' τ observer) s := by
  by_cases hc : c
  · simp only [if_pos hc]
    exact h hc
  · simp only [if_neg hc]
    exact h₁ hc

end Tells

/-! ### Programs -/

section Programs

variable {Query : Type} {Answer : Query → Type} {s : σ}

/-- Running a composition is composing the runs. -/
theorem run_bind_apply (env : Env Answer ε σ) (p : Interaction Answer ε α)
    (f : α → Interaction Answer ε β) (s : σ) :
    run env (p >>= f) s =
      bind (m := StateT σ (Except ε)) (run env p) (fun a => run env (f a)) s := by
  rw [run_bind]
  show _ = (run env p s >>= fun x => run env (f x.1) x.2)
  cases run env p s with
  | error e => rfl
  | ok x => rfl

/-- Asking a query is composing with the environment. -/
theorem run_ask_apply (env : Env Answer ε σ) (q : Query) (k : Answer q → Interaction Answer ε α)
    (s : σ) : run env (.ask q k) s =
      bind (m := StateT σ (Except ε)) (env q) (fun r => run env (k r)) s := by
  show _ = (env q s >>= fun x => run env (k x.1) x.2)
  rw [run]
  cases env q s with
  | error e => rfl
  | ok x => rfl

/-- Compositions of programs. -/
theorem Tells.run_bind {Query' : Type} {Answer' : Query' → Type} {Good : α → σ → List Event → Prop}
    {Good' : β → σ → List Event → Prop} {env : Env Answer ε σ}
    {env' : ∀ τ : Type, Observer Event ε τ → Env Answer' ε (σ × τ)} {p : Interaction Answer ε α}
    {f : α → Interaction Answer ε β} {p' : Interaction Answer' ε α}
    {f' : α → Interaction Answer' ε β}
    (h : Tells Good (run env p) (fun τ observer => run (env' τ observer) p') s)
    (hf : ∀ a s₁ events, run env p s = .ok (a, s₁) → Good a s₁ events →
      Tells (fun b s₂ events' => Good' b s₂ (events ++ events')) (run env (f a))
        (fun τ observer => run (env' τ observer) (f' a)) s₁) :
    Tells Good' (run env (p >>= f)) (fun τ observer => run (env' τ observer) (p' >>= f')) s := by
  refine (h.bind hf).congr (run_bind_apply env p f s).symm fun τ observer t => ?_
  exact (run_bind_apply (env' τ observer) p' f' (s, t)).symm

/-- A value without events. -/
theorem tells_ret (env : Env Answer ε σ) {Query' : Type} {Answer' : Query' → Type}
    (env' : ∀ τ : Type, Observer Event ε τ → Env Answer' ε (σ × τ))
    {Good : α → σ → List Event → Prop} {a : α} (h : Good a s []) :
    Tells Good (run env (.ret a)) (fun τ observer => run (env' τ observer) (.ret a)) s := by
  refine ⟨[], fun _ _ _ => rfl, ?_⟩
  rintro b s' hrun
  cases hrun
  exact h

/-- A notification is an event and no more. -/
theorem tells_notify (env : Env Answer ε σ)
    (env' : ∀ τ : Type, Observer Event ε τ → Env Answer ε (σ × τ)) (event : Event) :
    Tells (fun _ s' events => s' = s ∧ events = [event]) (run env (.ret ()))
      (fun τ observer => run (watched (env' τ observer) observer) (notify event)) s := by
  refine ⟨[event], fun τ observer t => ?_, ?_⟩
  · rw [Observer.take]
    simp only [notify, run, watched]
    cases observer event t with
    | error e => rfl
    | ok t' => rfl
  · rintro a s' hrun
    cases hrun
    exact ⟨rfl, rfl⟩

/-- A silent program tells what the answers to its queries tell, one after the other. -/
theorem tells_silent {env : Env Answer ε σ}
    {env' : ∀ τ : Type, Observer Event ε τ → Env Answer ε (σ × τ)}
    {P : Interaction Answer ε α → σ → List Event → Prop} {G : Query → σ → List Event → Prop}
    {p : Interaction Answer ε α} (hret : ∀ a s, P (.ret a) s [])
    (hask : ∀ {q : Query} {k : Answer q → Interaction Answer ε α} {s s₁ : σ} {r : Answer q}
      {events events' : List Event}, env q s = .ok (r, s₁) → G q s events →
      P (k r) s₁ events' → P (.ask q k) s (events ++ events'))
    (henv : ∀ q s', Reaches env p s q s' →
      Tells (fun _ _ => G q s') (env q) (fun τ observer => env' τ observer q) s') :
    Tells (fun _ _ => P p s) (run env p)
      (fun τ observer => run (watched (env' τ observer) observer) (silent p)) s := by
  induction p generalizing s with
  | ret a => exact ⟨[], fun _ _ _ => rfl, fun _ _ _ => hret a s⟩
  | fail e => exact ⟨[], fun _ _ _ => rfl, fun _ _ h => by cases h⟩
  | ask q k ih =>
    -- The events of the question, then those of the rest of the run.
    have hquery := henv q s .here
    have hrest : ∀ r s₁ events, env q s = .ok (r, s₁) → G q s events →
        Tells (fun _ _ events' => P (.ask q k) s (events ++ events')) (run env (k r))
          (fun τ observer => run (watched (env' τ observer) observer) (silent (k r))) s₁ := by
      intro r s₁ events hq hevents
      have hlater := ih r fun q' s' hreach => henv q' s' (.later hq hreach)
      exact hlater.mono fun _ _ _ _ hevents' => hask hq hevents hevents'
    refine (hquery.bind hrest).congr (run_ask_apply env q k s).symm fun τ observer t => ?_
    exact (run_ask_apply (watched (env' τ observer) observer) (.inl q) (fun r => silent (k r))
      (s, t)).symm

end Programs

end StateRun
