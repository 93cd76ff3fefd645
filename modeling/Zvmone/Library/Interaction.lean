import Mathlib.Data.Set.Finite.Basic
import Mathlib.Logic.Basic
import Mathlib.Tactic.Common

/-! # Programs that question an environment

`Interaction Answer ε α` is the type of programs that compute an `α` by putting queries to an
environment they know nothing about. A program is a tree: it returns a value, stops with a fault,
or asks a query and goes on with the answer. An *environment* is a state machine that answers
queries (`Interaction.run`).

Five ways of reasoning about a program are developed once and for all:

* **`wp`** — the weakest precondition under a `Contract`, which says what the program must
  guarantee when it asks and what it may rely on in the answers. `run_wp` transports it to every
  environment that keeps the contract.
* **`Sim`** — two programs ask the same queries in lockstep until both return related values, or
  until the right one gives up while everything the left one can still return is acceptable.
  `run_sim` transports it to every environment.
* **`Lockstep`** — two programs ask the same queries until both return related values
  (`Lockstep.run`).
* **`Coincide`** — under a contract two programs ask the same queries and return the same value
  (`Coincide.run`). -/

/-- Programs that compute an `α`, may stop with a fault `ε`, and get everything they learn about
the world from the answers to their queries. -/
inductive Interaction {Query : Type} (Answer : Query → Type) (ε α : Type) : Type where
  /-- The program returns a value. -/
  | ret (value : α) : Interaction Answer ε α
  /-- The program stops with a fault. -/
  | fail (fault : ε) : Interaction Answer ε α
  /-- The program asks a query and goes on with the answer. -/
  | ask (query : Query) (next : Answer query → Interaction Answer ε α) : Interaction Answer ε α

namespace Interaction

variable {Query : Type} {Answer : Query → Type} {ε α β α' β' σ γ : Type}

/-- Sequential composition: graft `f` onto the leaves of the program. -/
def bind : Interaction Answer ε α → (α → Interaction Answer ε β) → Interaction Answer ε β
  | .ret a, f => f a
  | .fail e, _ => .fail e
  | .ask q k, f => .ask q fun r => (k r).bind f

instance : Monad (Interaction Answer ε) where
  pure := .ret
  bind := bind

/-- Ask one query and return the answer. -/
def query (q : Query) : Interaction Answer ε (Answer q) := .ask q .ret

/-- A pure program returns its value. -/
@[simp] theorem pure_eq (a : α) : (pure a : Interaction Answer ε α) = .ret a := rfl

/-- A returned value is passed on. -/
@[simp] theorem ret_bind (a : α) (f : α → Interaction Answer ε β) :
    ((.ret a : Interaction Answer ε α) >>= f) = f a := rfl

/-- Nothing runs after a fault. -/
@[simp] theorem fail_bind (e : ε) (f : α → Interaction Answer ε β) :
    ((.fail e : Interaction Answer ε α) >>= f) = .fail e := rfl

/-- What follows a question follows each of its answers. -/
@[simp] theorem ask_bind (q : Query) (k : Answer q → Interaction Answer ε α)
    (f : α → Interaction Answer ε β) :
    (Interaction.ask q k >>= f) = .ask q fun r => k r >>= f := rfl

/-- A query passes on its answer. -/
@[simp] theorem query_bind (q : Query) (f : Answer q → Interaction Answer ε β) :
    (query q >>= f) = .ask q f := rfl

/-- Returning the value at the end changes nothing. -/
@[simp] theorem bind_ret (p : Interaction Answer ε α) : (p >>= Interaction.ret) = p := by
  induction p with
  | ret a => rfl
  | fail e => rfl
  | ask q k ih => rw [ask_bind]; congr 1; funext r; exact ih r

/-- Sequencing is associative. -/
theorem bind_assoc (p : Interaction Answer ε α) (f : α → Interaction Answer ε β)
    (g : β → Interaction Answer ε γ) :
    ((p >>= f) >>= g) = (p >>= fun a => f a >>= g) := by
  induction p with
  | ret a => rfl
  | fail e => rfl
  | ask q k ih => simp only [ask_bind]; congr 1; funext r; exact ih r

/-! ### Running against an environment -/

/-- An environment: a state machine that answers queries and may itself stop with a fault. -/
abbrev Env {Query : Type} (Answer : Query → Type) (ε σ : Type) : Type :=
  (q : Query) → σ → Except ε (Answer q × σ)

/-- Run a program against an environment. -/
def run (env : Env Answer ε σ) : Interaction Answer ε α → σ → Except ε (α × σ)
  | .ret a, s => .ok (a, s)
  | .fail e, _ => .error e
  | .ask q k, s =>
    match env q s with
    | .error e => .error e
    | .ok (r, s') => run env (k r) s'

/-- A returned value leaves the environment as it is. -/
@[simp] theorem run_ret (env : Env Answer ε σ) (a : α) (s : σ) :
    run env (.ret a) s = .ok (a, s) := rfl

/-- A fault ends the run. -/
@[simp] theorem run_fail (env : Env Answer ε σ) (e : ε) (s : σ) :
    run env (.fail e : Interaction Answer ε α) s = .error e := rfl

/-- A run goes on with the answer of the environment. -/
theorem run_ask_ok {env : Env Answer ε σ} {q : Query} {s s' : σ} {r : Answer q}
    (h : env q s = .ok (r, s')) (k : Answer q → Interaction Answer ε α) :
    run env (.ask q k) s = run env (k r) s' := by
  simp only [run, h]

/-- A fault of the environment ends the run. -/
theorem run_ask_error {env : Env Answer ε σ} {q : Query} {s : σ} {e : ε}
    (h : env q s = .error e) (k : Answer q → Interaction Answer ε α) :
    run env (.ask q k) s = .error e := by
  simp only [run, h]

/-- Running a composition is running the parts one after the other. -/
theorem run_bind (env : Env Answer ε σ) (p : Interaction Answer ε α)
    (f : α → Interaction Answer ε β) (s : σ) :
    run env (p >>= f) s =
      match run env p s with
      | .error e => .error e
      | .ok (a, s') => run env (f a) s' := by
  induction p generalizing s with
  | ret a => rfl
  | fail e => rfl
  | ask q k ih =>
    rw [ask_bind]
    cases h : env q s with
    | error e => rw [run_ask_error h, run_ask_error h]
    | ok rs =>
      obtain ⟨r, s'⟩ := rs
      rw [run_ask_ok h, run_ask_ok h, ih]

/-- `Reaches env p s q s'`: run from the state `s`, the program asks the query `q` in the state
`s'`. -/
inductive Reaches (env : Env Answer ε σ) : Interaction Answer ε α → σ → Query → σ → Prop where
  /-- The query is the next one. -/
  | here {q : Query} {k : Answer q → Interaction Answer ε α} {s : σ} :
      Reaches env (.ask q k) s q s
  /-- The query is asked after the next one is answered. -/
  | later {q q' : Query} {k : Answer q → Interaction Answer ε α} {s s₁ s' : σ} {r : Answer q}
      (h : env q s = .ok (r, s₁)) (h' : Reaches env (k r) s₁ q' s') :
      Reaches env (.ask q k) s q' s'

section Reaches

variable {env : Env Answer ε σ} {s s' : σ} {q q' : Query}

/-- A returned value asks nothing. -/
@[simp] theorem not_reaches_ret {a : α} : ¬ Reaches env (.ret a : Interaction Answer ε α) s q s' := by
  rintro ⟨⟩

/-- A program that stopped asks nothing. -/
@[simp] theorem not_reaches_fail {e : ε} :
    ¬ Reaches env (.fail e : Interaction Answer ε α) s q s' := by
  rintro ⟨⟩

/-- A program reaches its first question, and what it reaches after the answer. -/
theorem reaches_ask {k : Answer q → Interaction Answer ε α} :
    Reaches env (.ask q k) s q' s' ↔
      q' = q ∧ s' = s ∨ ∃ r s₁, env q s = .ok (r, s₁) ∧ Reaches env (k r) s₁ q' s' := by
  constructor
  · intro h
    cases h with
    | here => exact .inl ⟨rfl, rfl⟩
    | later h h' => exact .inr ⟨_, _, h, h'⟩
  · rintro (⟨rfl, rfl⟩ | ⟨r, s₁, h, h'⟩)
    · exact .here
    · exact .later h h'

/-- A query of a composition is asked by its first part, or by the second once the first is done. -/
theorem reaches_bind {p : Interaction Answer ε α} {f : α → Interaction Answer ε β} :
    Reaches env (p >>= f) s q s' ↔
      Reaches env p s q s' ∨ ∃ a s₁, run env p s = .ok (a, s₁) ∧ Reaches env (f a) s₁ q s' := by
  induction p generalizing s with
  | ret a => simp
  | fail e => simp
  | ask q₀ k ih =>
    rw [ask_bind, reaches_ask, reaches_ask]
    -- If the first question has no answer, both sides stop at it.
    cases h : env q₀ s with
    | error e => simp [run_ask_error h]
    | ok x =>
      obtain ⟨r, s₁⟩ := x
      simp only [run_ask_ok h, Except.ok.injEq, Prod.mk.injEq]
      constructor
      · rintro (hq | ⟨_, _, ⟨rfl, rfl⟩, hk⟩)
        · exact .inl (.inl hq)
        · rcases ih r |>.1 hk with hk | hk
          · exact .inl (.inr ⟨_, _, ⟨rfl, rfl⟩, hk⟩)
          · exact .inr hk
      · rintro ((hq | ⟨_, _, ⟨rfl, rfl⟩, hk⟩) | hk)
        · exact .inl hq
        · exact .inr ⟨_, _, ⟨rfl, rfl⟩, (ih r).2 (.inl hk)⟩
        · exact .inr ⟨_, _, ⟨rfl, rfl⟩, (ih r).2 (.inr hk)⟩

/-- In a run that ends every query is answered. -/
theorem Reaches.answered {p : Interaction Answer ε α} (h : Reaches env p s q s') {a : α} {s₁ : σ}
    (hrun : run env p s = .ok (a, s₁)) : ∃ r s₂, env q s' = .ok (r, s₂) := by
  induction h with
  | @here q k s =>
    cases hq : env q s with
    | error e => rw [run_ask_error hq] at hrun; cases hrun
    | ok x => exact ⟨x.1, x.2, rfl⟩
  | later hq _ ih =>
    rw [run_ask_ok hq] at hrun
    exact ih hrun

/-- A program asks finitely many queries. -/
theorem finite_reaches (env : Env Answer ε σ) (p : Interaction Answer ε α) (s : σ) :
    {x : Query × σ | Reaches env p s x.1 x.2}.Finite := by
  induction p generalizing s with
  | ret a => simp
  | fail e => simp
  | ask q k ih =>
    cases h : env q s with
    | error e =>
      refine (Set.finite_singleton (q, s)).subset ?_
      rintro ⟨q', s'⟩ hreaches
      rcases reaches_ask.1 hreaches with ⟨hq, hs⟩ | ⟨r, s₁, hr, -⟩
      · exact Prod.ext hq hs
      · rw [h] at hr
        cases hr
    | ok x =>
      refine ((ih x.1 x.2).insert (q, s)).subset ?_
      rintro ⟨q', s'⟩ hreaches
      rcases reaches_ask.1 hreaches with ⟨hq, hs⟩ | ⟨r, s₁, hr, hlater⟩
      · exact .inl (Prod.ext hq hs)
      · rw [h] at hr
        cases hr
        exact .inr hlater

end Reaches

/-! ### What the queries of a run add up to -/

section collect

variable {env : Env Answer ε σ} {f : Query → σ → List γ} {s s' : σ} {q : Query} {xs : List γ}

/-- What the queries of a run contribute, one after the other. -/
def collect (env : Env Answer ε σ) (f : Query → σ → List γ) :
    Interaction Answer ε α → σ → List γ
  | .ret _, _ => []
  | .fail _, _ => []
  | .ask q k, s =>
    match env q s with
    | .error _ => []
    | .ok (r, s') => f q s ++ (k r).collect env f s'

/-- A question adds to what its answer leads to. -/
theorem collect_ask {r : Answer q} (h : env q s = .ok (r, s')) (k : Answer q → Interaction Answer ε α) :
    (Interaction.ask q k).collect env f s = f q s ++ (k r).collect env f s' := by
  simp only [collect, h]

/-- `ReachesAfter env f p s q s' xs`: run from the state `s`, the program asks the query `q` in the
state `s'`, and the queries before it have contributed `xs`. -/
inductive ReachesAfter (env : Env Answer ε σ) (f : Query → σ → List γ) :
    Interaction Answer ε α → σ → Query → σ → List γ → Prop where
  | here {q : Query} {k : Answer q → Interaction Answer ε α} {s : σ} :
      ReachesAfter env f (.ask q k) s q s []
  | later {q q' : Query} {k : Answer q → Interaction Answer ε α} {s s₁ s' : σ} {r : Answer q}
      {xs : List γ} (h : env q s = .ok (r, s₁)) (h' : ReachesAfter env f (k r) s₁ q' s' xs) :
      ReachesAfter env f (.ask q k) s q' s' (f q s ++ xs)

/-- The query after `n` others, the state in which it is asked and what those before it have
contributed. -/
def queryAfter (env : Env Answer ε σ) (f : Query → σ → List γ) :
    Nat → Interaction Answer ε α → σ → Option (Query × σ × List γ)
  | _, .ret _, _ => none
  | _, .fail _, _ => none
  | 0, .ask q _, s => some (q, s, [])
  | n + 1, .ask q k, s =>
    match env q s with
    | .error _ => none
    | .ok (r, s') => (queryAfter env f n (k r) s').map fun x => (x.1, x.2.1, f q s ++ x.2.2)

/-- What is found after `n` questions is reached. -/
theorem reachesAfter_of_queryAfter {p : Interaction Answer ε α} {n : Nat}
    (h : queryAfter env f n p s = some (q, s', xs)) : ReachesAfter env f p s q s' xs := by
  induction p generalizing n s xs with
  | ret a => cases n <;> cases h
  | fail e => cases n <;> cases h
  | ask q₀ k ih =>
    cases n with
    | zero =>
      cases h
      exact .here
    | succ n =>
      unfold queryAfter at h
      cases hq : env q₀ s with
      | error e => rw [hq] at h; cases h
      | ok x =>
        rw [hq] at h
        obtain ⟨⟨q₁, s₁, ys⟩, hlater, hx⟩ := Option.map_eq_some_iff.1 h
        cases hx
        exact .later hq (ih x.1 hlater)

/-- A relation between states that depends on what was contributed between them, and composes. -/
structure Accumulates (R : List γ → σ → σ → Prop) : Prop where
  nil : ∀ s, R [] s s
  append : ∀ {xs ys s₁ s₂ s₃}, R xs s₁ s₂ → R ys s₂ s₃ → R (xs ++ ys) s₁ s₃

/-- A run accumulates what its queries contribute. -/
theorem Accumulates.run {R : List γ → σ → σ → Prop} (hR : Accumulates R)
    (henv : ∀ q s r s', env q s = .ok (r, s') → R (f q s) s s') {p : Interaction Answer ε α} {a : α}
    (hrun : Interaction.run env p s = .ok (a, s')) : R (p.collect env f s) s s' := by
  induction p generalizing s with
  | ret b =>
    cases hrun
    exact hR.nil _
  | fail e => cases hrun
  | ask q k ih =>
    cases hq : env q s with
    | error e => rw [run_ask_error hq] at hrun; cases hrun
    | ok x =>
      obtain ⟨r, s₁⟩ := x
      rw [run_ask_ok hq] at hrun
      rw [collect_ask hq]
      exact hR.append (henv q s r s₁ hq) (ih r hrun)

/-- Up to a query a run accumulates what the queries before it contribute. -/
theorem Accumulates.reaches {R : List γ → σ → σ → Prop} (hR : Accumulates R)
    (henv : ∀ q s r s', env q s = .ok (r, s') → R (f q s) s s') {p : Interaction Answer ε α}
    (h : ReachesAfter env f p s q s' xs) : R xs s s' := by
  induction h with
  | here => exact hR.nil _
  | later hq _ ih => exact hR.append (henv _ _ _ _ hq) ih

end collect

/-- Every answer an environment gives shows in its state: the environment that also records the
queries it was asked, newest first. -/
def recording (env : Env Answer ε σ) : Env Answer ε (σ × List Query) := fun q s =>
  match env q s.1 with
  | .error e => .error e
  | .ok (r, s') => .ok (r, (s', q :: s.2))

/-! ### Weakest preconditions under a contract -/

/-- What a program and its environment promise each other. The ghost state `γ` is what the
contract remembers of the exchange so far. -/
structure Contract {Query : Type} (Answer : Query → Type) (ε γ : Type) where
  /-- What the program guarantees when it asks. -/
  pre : γ → Query → Prop
  /-- What the program may rely on in the answer; it also moves the ghost state. -/
  post : γ → (q : Query) → Answer q → γ → Prop
  /-- The faults the program may stop with. -/
  abort : ε → Prop := fun _ => True

/-- The weakest precondition of a program under a contract. -/
def wp (C : Contract Answer ε γ) : Interaction Answer ε α → γ → (α → γ → Prop) → Prop
  | .ret a, g, Q => Q a g
  | .fail e, _, _ => C.abort e
  | .ask q k, g, Q => C.pre g q ∧ ∀ r g', C.post g q r g' → wp C (k r) g' Q

section wp

variable {C : Contract Answer ε γ} {g : γ}

/-- A returned value must satisfy the postcondition. -/
@[simp] theorem wp_ret (a : α) (Q : α → γ → Prop) :
    wp C (.ret a : Interaction Answer ε α) g Q ↔ Q a g := Iff.rfl

/-- A fault must be one of those the contract admits. -/
@[simp] theorem wp_fail (e : ε) (Q : α → γ → Prop) :
    wp C (.fail e : Interaction Answer ε α) g Q ↔ C.abort e := Iff.rfl

/-- A question must be allowed, and every admitted answer must lead to the postcondition. -/
@[simp] theorem wp_ask (q : Query) (k : Answer q → Interaction Answer ε α) (Q : α → γ → Prop) :
    wp C (.ask q k) g Q ↔ C.pre g q ∧ ∀ r g', C.post g q r g' → wp C (k r) g' Q := Iff.rfl

/-- A query must be allowed, and every admitted answer must satisfy the postcondition. -/
@[simp] theorem wp_query (q : Query) (Q : Answer q → γ → Prop) :
    wp C (query q : Interaction Answer ε (Answer q)) g Q
      ↔ C.pre g q ∧ ∀ r g', C.post g q r g' → Q r g' := Iff.rfl

/-- The weakest precondition of a composition is the composition of the weakest preconditions. -/
@[simp] theorem wp_bind (p : Interaction Answer ε α) (f : α → Interaction Answer ε β)
    (Q : β → γ → Prop) :
    wp C (p >>= f) g Q ↔ wp C p g fun a g' => wp C (f a) g' Q := by
  induction p generalizing g with
  | ret a => rfl
  | fail e => rfl
  | ask q k ih => simp only [ask_bind, wp_ask, ih]

/-- A weakest precondition is monotone in the postcondition. -/
theorem wp_mono {p : Interaction Answer ε α} {Q Q' : α → γ → Prop} (h : wp C p g Q)
    (hQ : ∀ a g', Q a g' → Q' a g') : wp C p g Q' := by
  induction p generalizing g with
  | ret a => exact hQ a g h
  | fail e => exact h
  | ask q k ih => exact ⟨h.1, fun r g' hr => ih r (h.2 r g' hr)⟩

/-- Two postconditions can be established one by one. -/
theorem wp_and {p : Interaction Answer ε α} {Q Q' : α → γ → Prop} (h : wp C p g Q)
    (h' : wp C p g Q') : wp C p g fun a g' => Q a g' ∧ Q' a g' := by
  induction p generalizing g with
  | ret a => exact ⟨h, h'⟩
  | fail e => exact h
  | ask q k ih => exact ⟨h.1, fun r g' hr => ih r (h.2 r g' hr) (h'.2 r g' hr)⟩

/-- What holds of every answer the contract admits holds of every environment that keeps the
contract: `R` relates the states of the environment to the ghost states. -/
theorem run_wp {env : Env Answer ε σ} {R : σ → γ → Prop}
    (henv : ∀ s g q r s', R s g → C.pre g q → env q s = .ok (r, s') →
      ∃ g', C.post g q r g' ∧ R s' g')
    {p : Interaction Answer ε α} {Q : α → γ → Prop} (hp : wp C p g Q) {s s' : σ} (hs : R s g)
    {a : α} (hrun : run env p s = .ok (a, s')) : ∃ g', R s' g' ∧ Q a g' := by
  induction p generalizing g s with
  | ret b =>
    obtain ⟨rfl, rfl⟩ : b = a ∧ s = s' := by simpa using hrun
    exact ⟨g, hs, hp⟩
  | fail e => simp at hrun
  | ask q k ih =>
    cases h : env q s with
    | error e => rw [run_ask_error h] at hrun; cases hrun
    | ok rs =>
      obtain ⟨r, s₁⟩ := rs
      rw [run_ask_ok h] at hrun
      obtain ⟨g₁, hpost, hR⟩ := henv s g q r s₁ hs hp.1 h
      exact ih r (hp.2 r g₁ hpost) hR hrun

end wp

/-- The contract that only constrains the answers: the program may ask anything, it may rely on
`K`, and it may not stop with a fault. -/
def Contract.answers (ε : Type) (K : (q : Query) → Answer q → Prop) : Contract Answer ε Unit where
  pre _ _ := True
  post _ q r _ := K q r
  abort _ := False

/-- The contract that only constrains the queries: the program asks allowed queries and does not
stop with a fault. -/
def Contract.asking (ε : Type) (allowed : Query → Prop) : Contract Answer ε Unit where
  pre _ q := allowed q
  post _ _ _ _ := True
  abort _ := False

/-- A weakest precondition carries over to a contract that demands less of the program and promises
more of the answers. -/
theorem wp_weaken {C C' : Contract Answer ε Unit} {p : Interaction Answer ε α}
    {Q : α → Unit → Prop} (h : wp C p () Q) (hpre : ∀ q, C.pre () q → C'.pre () q)
    (hpost : ∀ q r, C'.post () q r () → C.post () q r ()) (habort : ∀ e, C.abort e → C'.abort e) :
    wp C' p () Q := by
  induction p with
  | ret a => exact h
  | fail e => exact habort e h
  | ask q k ih =>
    exact ⟨hpre q h.1, fun r () hr => ih r (h.2 r () (hpost q r hr))⟩

/-- What holds whatever is asked and answered holds for answers that satisfy `K`. -/
theorem wp_answers_of_asking {allowed : Query → Prop} {K : (q : Query) → Answer q → Prop}
    {p : Interaction Answer ε α} {Q : α → Unit → Prop} (h : wp (.asking ε allowed) p () Q) :
    wp (.answers ε K) p () Q :=
  wp_weaken h (fun _ _ => trivial) (fun _ _ _ => trivial) fun _ he => he

/-- The contract permits the queries, and they leave its ghost state `g` alone. -/
structure Contract.Neutral (C : Contract Answer ε γ) (g : γ) (allowed : Query → Prop) : Prop where
  pre : ∀ q, allowed q → C.pre g q
  post : ∀ q r g', allowed q → C.post g q r g' → g' = g

/-- A contract that is neutral to a set of queries is neutral to a smaller one. -/
theorem Contract.Neutral.mono {C : Contract Answer ε γ} {g : γ} {allowed allowed' : Query → Prop}
    (h : C.Neutral g allowed) (hallowed : ∀ q, allowed' q → allowed q) : C.Neutral g allowed' :=
  ⟨fun q hq => h.pre q (hallowed q hq), fun q r g' hq => h.post q r g' (hallowed q hq)⟩

/-- What holds whatever is asked and answered holds under every contract to which the allowed
queries are neutral. -/
theorem wp_of_asking {allowed : Query → Prop} {C : Contract Answer ε γ} {g : γ}
    (hC : C.Neutral g allowed) {p : Interaction Answer ε α} {Q : α → Prop}
    (h : wp (.asking ε allowed) p () fun a _ => Q a) : wp C p g fun a g' => g' = g ∧ Q a := by
  induction p with
  | ret a => exact ⟨rfl, h⟩
  | fail e => exact h.elim
  | ask q k ih =>
    refine ⟨hC.pre q h.1, fun r g' hr => ?_⟩
    obtain rfl := hC.post q r g' h.1 hr
    exact ih r (h.2 r () trivial)

/-- A program that stops with no fault itself stops at a query that the environment answers with
one. -/
theorem reaches_of_run_error {allowed : Query → Prop} {env : Env Answer ε σ}
    {p : Interaction Answer ε α} {Q : α → Unit → Prop} (hp : wp (.asking ε allowed) p () Q) {s : σ}
    {e : ε} (hrun : run env p s = .error e) :
    ∃ q s', allowed q ∧ Reaches env p s q s' ∧ env q s' = .error e := by
  induction p generalizing s with
  | ret a => cases hrun
  | fail e => exact hp.elim
  | ask q k ih =>
    cases hq : env q s with
    | error e' =>
      rw [run_ask_error hq] at hrun
      exact ⟨q, s, hp.1, .here, hq.trans (congrArg _ (Except.error.inj hrun))⟩
    | ok x =>
      obtain ⟨r, s₁⟩ := x
      rw [run_ask_ok hq] at hrun
      obtain ⟨q', s', hallowed, hreach, herror⟩ := ih r (hp.2 r () trivial) hrun
      exact ⟨q', s', hallowed, .later hq hreach, herror⟩

/-- The program asks only allowed queries, whatever it is answered. -/
def Asks (allowed : Query → Prop) : Interaction Answer ε α → Prop
  | .ret _ => True
  | .fail _ => True
  | .ask q k => allowed q ∧ ∀ r, (k r).Asks allowed

section Asks

variable {allowed : Query → Prop}

/-- A returned value asks nothing. -/
@[simp] theorem asks_ret (a : α) : (.ret a : Interaction Answer ε α).Asks allowed := trivial

/-- A program that stopped asks nothing. -/
@[simp] theorem asks_fail (e : ε) : (.fail e : Interaction Answer ε α).Asks allowed := trivial

/-- All questions are allowed if the first one is and those after every answer are. -/
@[simp] theorem asks_ask (q : Query) (k : Answer q → Interaction Answer ε α) :
    (Interaction.ask q k).Asks allowed ↔ allowed q ∧ ∀ r, (k r).Asks allowed := Iff.rfl

/-- A contract whose answers are all possible bounds the questions. -/
theorem asks_of_wp {C : Contract Answer ε Unit} {p : Interaction Answer ε α} {Q : α → Unit → Prop}
    (h : wp C p () Q) (hpre : ∀ q, C.pre () q → allowed q) (hpost : ∀ q r, C.post () q r ()) :
    p.Asks allowed := by
  induction p with
  | ret a => trivial
  | fail e => trivial
  | ask q k ih => exact ⟨hpre q h.1, fun r => ih r (h.2 r () (hpost q r))⟩

end Asks

/-- A program reaches allowed queries only. -/
theorem Asks.reaches {allowed : Query → Prop} {env : Env Answer ε σ} {p : Interaction Answer ε α}
    (hp : p.Asks allowed) {s s' : σ} {q : Query} (h : Reaches env p s q s') : allowed q := by
  induction h with
  | here => exact hp.1
  | later _ _ ih => exact ih (hp.2 _)

/-- Whatever the program returns satisfies `P`, whatever it is answered. -/
def Returns (P : α → Prop) : Interaction Answer ε α → Prop
  | .ret a => P a
  | .fail _ => True
  | .ask _ k => ∀ r, (k r).Returns P

section Returns

variable {P : α → Prop}

/-- What a returned value satisfies. -/
@[simp] theorem returns_ret (a : α) : (.ret a : Interaction Answer ε α).Returns P ↔ P a := Iff.rfl

/-- The property of the values can be weakened. -/
theorem Returns.imp {P' : α → Prop} {p : Interaction Answer ε α} (hp : p.Returns P)
    (h : ∀ a, P a → P' a) : p.Returns P' := by
  induction p with
  | ret a => exact h a hp
  | fail e => trivial
  | ask q k ih => exact fun r => ih r (hp r)

/-- Two properties of the values hold together. -/
theorem Returns.and {P' : α → Prop} {p : Interaction Answer ε α} (hp : p.Returns P)
    (hp' : p.Returns P') : p.Returns fun a => P a ∧ P' a := by
  induction p with
  | ret a => exact ⟨hp, hp'⟩
  | fail e => trivial
  | ask q k ih => exact fun r => ih r (hp r) (hp' r)

/-- What a composition returns, its last part returns. -/
theorem Returns.bind {p : Interaction Answer ε β} {f : β → Interaction Answer ε α}
    (hf : ∀ b, (f b).Returns P) : (p >>= f).Returns P := by
  induction p with
  | ret b => exact hf b
  | fail e => trivial
  | ask q k ih => exact fun r => ih r

/-- Values that satisfy `P` are passed on. -/
theorem Returns.seq {P : β → Prop} {Q : α → Prop} {p : Interaction Answer ε β}
    {f : β → Interaction Answer ε α} (hp : p.Returns P) (hf : ∀ b, P b → (f b).Returns Q) :
    (p >>= f).Returns Q := by
  induction p with
  | ret b => exact hf b hp
  | fail e => trivial
  | ask q k ih => exact fun r => ih r (hp r)

/-- The value of a run has the property. -/
theorem Returns.run {env : Env Answer ε σ} {p : Interaction Answer ε α} (hp : p.Returns P)
    {s s' : σ} {a : α} (hrun : Interaction.run env p s = .ok (a, s')) : P a := by
  induction p generalizing s with
  | ret b =>
    obtain ⟨rfl, rfl⟩ : b = a ∧ s = s' := by simpa using hrun
    exact hp
  | fail e => simp at hrun
  | ask q k ih =>
    cases h : env q s with
    | error e => rw [run_ask_error h] at hrun; cases hrun
    | ok rs =>
      obtain ⟨r, s₁⟩ := rs
      rw [run_ask_ok h] at hrun
      exact ih r (hp r) hrun

end Returns

/-- What a program returns in any case, it returns under a contract. -/
theorem wp_returns {C : Contract Answer ε γ} {p : Interaction Answer ε α} {g : γ}
    {Q : α → γ → Prop} {P : α → Prop} (h : wp C p g Q) (hp : p.Returns P) :
    wp C p g fun a g' => Q a g' ∧ P a := by
  induction p generalizing g with
  | ret a => exact ⟨h, hp⟩
  | fail e => exact h
  | ask q k ih => exact ⟨h.1, fun r g' hr => ih r (h.2 r g' hr) (hp r)⟩

/-- A program that keeps to a contract returns what its weakest precondition says, unless it stops
with a fault that the contract permits or the environment stops with a fault. -/
theorem run_of_wp {C : Contract Answer ε Unit} {env : Env Answer ε σ}
    (henv : ∀ q s r s', C.pre () q → env q s = .ok (r, s') → C.post () q r ())
    {p : Interaction Answer ε α} {Q : α → Prop} (hp : wp C p () fun a _ => Q a) (s : σ) :
    (∃ a s', Interaction.run env p s = .ok (a, s') ∧ Q a) ∨
      ∃ e, Interaction.run env p s = .error e ∧
        (C.abort e ∨ ∃ q s', C.pre () q ∧ env q s' = .error e) := by
  induction p generalizing s with
  | ret a => exact .inl ⟨a, s, rfl, hp⟩
  | fail e => exact .inr ⟨e, rfl, .inl hp⟩
  | ask q k ih =>
    cases h : env q s with
    | error e => exact .inr ⟨e, run_ask_error h k, .inr ⟨q, s, hp.1, h⟩⟩
    | ok rs =>
      obtain ⟨r, s'⟩ := rs
      rw [run_ask_ok h]
      exact ih r (hp.2 r () (henv q s r s' hp.1 h)) s'

/-- An environment that answers whenever another one does not stop with the fault `e`, and then in
the same way, lets a program run in the same way. -/
theorem run_mono {env env' : Env Answer ε σ} {e : ε}
    (henv : ∀ q s, env q s ≠ .error e → env' q s = env q s) {p : Interaction Answer ε α} {s : σ}
    (h : Interaction.run env p s ≠ .error e) :
    Interaction.run env' p s = Interaction.run env p s := by
  induction p generalizing s with
  | ret a => rfl
  | fail e => rfl
  | ask q k ih =>
    cases hq : env q s with
    | error e' =>
      have hne : env q s ≠ .error e := by
        rw [run_ask_error hq] at h
        rw [hq]
        exact fun heq => h (by rw [Except.error.inj heq])
      rw [run_ask_error hq, run_ask_error ((henv q s hne).trans hq)]
    | ok rs =>
      obtain ⟨r, s'⟩ := rs
      have hne : env q s ≠ .error e := by
        rw [hq]
        exact nofun
      rw [run_ask_ok hq] at h ⊢
      rw [run_ask_ok ((henv q s hne).trans hq)]
      exact ih r h

/-- Environments that answer more and more queries, each like the ones before it: if one of them
answers each query that a program asks, one of them answers all that it asks in a run. -/
theorem exists_run_ne {env : Nat → Env Answer ε σ} {e : ε} {allowed : Query → Prop}
    {K : (q : Query) → Answer q → Prop}
    (hmono : ∀ {n m}, n ≤ m → ∀ q s, env n q s ≠ .error e → env m q s = env n q s)
    (hK : ∀ n q s r s', env n q s = .ok (r, s') → K q r)
    (hanswers : ∀ q s, allowed q → ∃ n, env n q s ≠ .error e) {p : Interaction Answer ε α}
    (hasks : p.Asks allowed) (hp : wp (.answers ε K) p () fun _ _ => True) (s : σ) :
    ∃ n, Interaction.run (env n) p s ≠ .error e := by
  induction p generalizing s with
  | ret a => exact ⟨0, nofun⟩
  | fail e' => exact hp.elim
  | ask q k ih =>
    obtain ⟨n, hn⟩ := hanswers q s hasks.1
    cases hq : env n q s with
    | error e' =>
      rw [hq] at hn
      exact ⟨n, fun h => hn (by rw [run_ask_error hq] at h; rw [Except.error.inj h])⟩
    | ok x =>
      obtain ⟨r, s'⟩ := x
      obtain ⟨m, hm⟩ := ih r (hasks.2 r) (hp.2 r () (hK n q s r s' hq)) s'
      -- From the larger of the two on, both the query and what follows it are answered.
      refine ⟨max n m, ?_⟩
      rw [run_ask_ok ((hmono (le_max_left n m) q s hn).trans hq),
        run_mono (hmono (le_max_right n m)) hm]
      exact hm

/-! ### Lockstep simulation -/

/-- `Sim K P F Q p p'`: the programs `p` and `p'` ask the same queries as long as the answers
satisfy `K`, until both return values related by `Q`; or `p'` returns early with a value in `F`
when whatever `p` can still return is in `P`. -/
inductive Sim (K : (q : Query) → Answer q → Prop) (P : α → Prop) (F : β → Prop)
    (Q : α → β → Prop) : Interaction Answer ε α → Interaction Answer ε β → Prop where
  /-- Both programs return. -/
  | ret {a : α} {b : β} (h : Q a b) : Sim K P F Q (.ret a) (.ret b)
  /-- Both programs ask the same query. -/
  | ask {q : Query} {k : Answer q → Interaction Answer ε α}
      {k' : Answer q → Interaction Answer ε β} (h : ∀ r, K q r → Sim K P F Q (k r) (k' r)) :
      Sim K P F Q (.ask q k) (.ask q k')
  /-- The right program has already given up. -/
  | early {p : Interaction Answer ε α} {b : β}
      (hp : wp (.answers ε K) p () fun a _ => P a) (hb : F b) : Sim K P F Q p (.ret b)

section Sim

variable {K : (q : Query) → Answer q → Prop} {P : α → Prop} {F : β → Prop} {Q : α → β → Prop}
  {P' : α' → Prop} {F' : β' → Prop} {Q' : α' → β' → Prop}

/-- Simulations compose, provided that a value of the right program that gave up is final. -/
theorem Sim.bind {p : Interaction Answer ε α} {p' : Interaction Answer ε β}
    {f : α → Interaction Answer ε α'} {f' : β → Interaction Answer ε β'} (h : Sim K P F Q p p')
    (hQ : ∀ a b, Q a b → Sim K P' F' Q' (f a) (f' b))
    (hP : ∀ a, P a → wp (.answers ε K) (f a) () fun a' _ => P' a')
    (hF : ∀ b, F b → ∃ b', f' b = .ret b' ∧ F' b') :
    Sim K P' F' Q' (p >>= f) (p' >>= f') := by
  induction h with
  | ret h => exact hQ _ _ h
  | ask _ ih => exact .ask fun r hr => ih r hr
  | early hp hb =>
    obtain ⟨b', hf, hb'⟩ := hF _ hb
    rw [ret_bind, hf]
    exact .early ((wp_bind _ _ _).2 (wp_mono hp fun a _ ha => hP a ha)) hb'

/-- Simulations are monotone in all three parameters. -/
theorem Sim.mono {p : Interaction Answer ε α} {p' : Interaction Answer ε β} {P₁ : α → Prop}
    {F₁ : β → Prop} {Q₁ : α → β → Prop} (h : Sim K P F Q p p') (hP : ∀ a, P a → P₁ a)
    (hF : ∀ b, F b → F₁ b) (hQ : ∀ a b, Q a b → Q₁ a b) : Sim K P₁ F₁ Q₁ p p' := by
  induction h with
  | ret h => exact .ret (hQ _ _ h)
  | ask _ ih => exact .ask ih
  | early hp hb => exact .early (wp_mono hp fun a _ ha => hP a ha) (hF _ hb)

/-- Programs with a common first part. -/
theorem Sim.after {A : γ → Prop} {p : Interaction Answer ε γ} {f : γ → Interaction Answer ε α}
    {f' : γ → Interaction Answer ε β} (hp : wp (.answers ε K) p () fun c _ => A c)
    (hf : ∀ c, A c → Sim K P F Q (f c) (f' c)) : Sim K P F Q (p >>= f) (p >>= f') := by
  induction p with
  | ret c => exact hf c hp
  | fail e => exact hp.elim
  | ask q k ih => exact .ask fun r hr => ih r (hp.2 r () hr)

/-- What the two programs return can be established one by one. -/
theorem Sim.and_wp {P₁ : α → Prop} {F₁ : β → Prop} {p : Interaction Answer ε α}
    {p' : Interaction Answer ε β} (h : Sim K P F Q p p')
    (hp : wp (.answers ε K) p () fun a _ => P₁ a) (hp' : wp (.answers ε K) p' () fun b _ => F₁ b) :
    Sim K (fun a => P a ∧ P₁ a) (fun b => F b ∧ F₁ b) (fun a b => Q a b ∧ P₁ a ∧ F₁ b) p p' := by
  induction h with
  | ret h => exact .ret ⟨h, hp, hp'⟩
  | ask _ ih => exact .ask fun r hr => ih r hr (hp.2 r () hr) (hp'.2 r () hr)
  | early h hb => exact .early (wp_and h hp) ⟨hb, hp'⟩

/-- A total environment: a state machine that never stops with a fault. -/
abbrev TotalEnv {Query : Type} (Answer : Query → Type) (σ : Type) : Type :=
  (q : Query) → σ → Answer q × σ

/-- A total environment as an environment. -/
def TotalEnv.toEnv (env : TotalEnv Answer σ) : Env Answer ε σ := fun q s => .ok (env q s)

/-- Against a total environment a program that may not stop with a fault returns a value as its
weakest precondition says. -/
theorem run_total_wp {env : TotalEnv Answer σ} (hK : ∀ q s, K q (env q s).1)
    {p : Interaction Answer ε α} (hp : wp (.answers ε K) p () fun a _ => P a) (s : σ) :
    ∃ a s', run env.toEnv p s = .ok (a, s') ∧ P a := by
  induction p generalizing s with
  | ret a => exact ⟨a, s, rfl, hp⟩
  | fail e => exact hp.elim
  | ask q k ih =>
    rw [run_ask_ok (show env.toEnv q s = .ok ((env q s).1, (env q s).2) from rfl)]
    exact ih _ (hp.2 _ () (hK q s)) _

/-- Against a total environment that satisfies `K`, simulating programs both return: with related
values and in the same state of the environment, or with a value in `P` and one in `F`. -/
theorem run_sim {env : TotalEnv Answer σ} (hK : ∀ q s, K q (env q s).1)
    {p : Interaction Answer ε α} {p' : Interaction Answer ε β} (h : Sim K P F Q p p') (s : σ) :
    ∃ a s₁ b s₂, run env.toEnv p s = .ok (a, s₁) ∧ run env.toEnv p' s = .ok (b, s₂) ∧
      (Q a b ∧ s₁ = s₂ ∨ P a ∧ F b) := by
  induction h generalizing s with
  | ret h => exact ⟨_, s, _, s, rfl, rfl, .inl ⟨h, rfl⟩⟩
  | @ask q k k' _ ih =>
    have hq : (TotalEnv.toEnv env : Env Answer ε σ) q s = .ok ((env q s).1, (env q s).2) := rfl
    rw [run_ask_ok hq, run_ask_ok hq]
    exact ih _ (hK q s) _
  | early hp hb =>
    obtain ⟨a, s₁, hrun, ha⟩ := run_total_wp hK hp s
    exact ⟨a, s₁, _, s, hrun, rfl, .inr ⟨ha, hb⟩⟩

end Sim

/-! ### Lockstep -/

/-- The programs ask the same queries and stop with the same fault, whatever they are answered, and
the values they return are related by `Q`. -/
inductive Lockstep (Q : α → β → Prop) :
    Interaction Answer ε α → Interaction Answer ε β → Prop where
  /-- Both programs return. -/
  | ret {a : α} {b : β} (h : Q a b) : Lockstep Q (.ret a) (.ret b)
  /-- Both programs stop. -/
  | fail {e : ε} : Lockstep Q (.fail e) (.fail e)
  /-- Both programs ask the same query. -/
  | ask {q : Query} {k : Answer q → Interaction Answer ε α}
      {k' : Answer q → Interaction Answer ε β} (h : ∀ r, Lockstep Q (k r) (k' r)) :
      Lockstep Q (.ask q k) (.ask q k')

section Lockstep

variable {Q : α → β → Prop} {Q' : α' → β' → Prop}

/-- Lockstep composes. -/
theorem Lockstep.bind {p : Interaction Answer ε α} {p' : Interaction Answer ε β}
    {f : α → Interaction Answer ε α'} {f' : β → Interaction Answer ε β'} (h : Lockstep Q p p')
    (hf : ∀ a b, Q a b → Lockstep Q' (f a) (f' b)) : Lockstep Q' (p >>= f) (p' >>= f') := by
  induction h with
  | ret h => exact hf _ _ h
  | fail => exact .fail
  | ask _ ih => exact .ask ih

/-- The relation of the values can be weakened. -/
theorem Lockstep.mono {Q₁ : α → β → Prop} {p : Interaction Answer ε α}
    {p' : Interaction Answer ε β} (h : Lockstep Q p p') (hQ : ∀ a b, Q a b → Q₁ a b) :
    Lockstep Q₁ p p' := by
  induction h with
  | ret h => exact .ret (hQ _ _ h)
  | fail => exact .fail
  | ask _ ih => exact .ask ih

/-- What a program returns is related to something the other one can return. -/
theorem Lockstep.returns {p : Interaction Answer ε α} {p' : Interaction Answer ε β}
    (h : Lockstep Q p p') : p.Returns fun a => ∃ b, Q a b := by
  induction h with
  | ret h => exact ⟨_, h⟩
  | fail => trivial
  | ask _ ih => exact ih

/-- What the first program returns in any case, it returns in lockstep. -/
theorem Lockstep.and_returns {Q : α → β → Prop} {P : α → Prop} {p : Interaction Answer ε α}
    {p' : Interaction Answer ε β} (h : Lockstep Q p p') (hp : p.Returns P) :
    Lockstep (fun a b => Q a b ∧ P a) p p' := by
  induction h with
  | ret h => exact .ret ⟨h, hp⟩
  | fail => exact .fail
  | ask _ ih => exact .ask fun r => ih r (hp r)

/-- Against an environment, programs in lockstep end in the same way: with the same fault, or with
related values and in the same state of the environment. -/
theorem Lockstep.run {p : Interaction Answer ε α} {p' : Interaction Answer ε β}
    (h : Lockstep Q p p') (env : Env Answer ε σ) (s : σ) :
    (∃ e, Interaction.run env p s = .error e ∧ Interaction.run env p' s = .error e) ∨
      ∃ a b s', Interaction.run env p s = .ok (a, s') ∧ Interaction.run env p' s = .ok (b, s') ∧
        Q a b := by
  induction h generalizing s with
  | ret h => exact .inr ⟨_, _, s, rfl, rfl, h⟩
  | fail => exact .inl ⟨_, rfl, rfl⟩
  | @ask q k k' _ ih =>
    cases hq : env q s with
    | error e => exact .inl ⟨e, run_ask_error hq k, run_ask_error hq k'⟩
    | ok rs =>
      obtain ⟨r, s₁⟩ := rs
      rw [run_ask_ok hq, run_ask_ok hq]
      exact ih r s₁

end Lockstep

/-! ### Programs that coincide under a contract -/

/-- Two programs keep the same contract: they ask the same queries, which it permits, and for all
answers that it admits they stop with the same fault or return the same value, which satisfies
`Q`. -/
inductive Coincide (C : Contract Answer ε Unit) (Q : α → Prop) :
    Interaction Answer ε α → Interaction Answer ε α → Prop where
  /-- Both programs return. -/
  | ret {a : α} (h : Q a) : Coincide C Q (.ret a) (.ret a)
  /-- Both programs stop. -/
  | fail {e : ε} (h : C.abort e) : Coincide C Q (.fail e) (.fail e)
  /-- Both programs ask the same query. -/
  | ask {q : Query} {k k' : Answer q → Interaction Answer ε α} (hpre : C.pre () q)
      (h : ∀ r, C.post () q r () → Coincide C Q (k r) (k' r)) : Coincide C Q (.ask q k) (.ask q k')

section Coincide

variable {C : Contract Answer ε Unit} {Q : α → Prop} {Q' : β → Prop}
  {p p' : Interaction Answer ε α}

/-- A program that keeps the contract agrees with itself. -/
theorem Coincide.of_wp (h : wp C p () fun a _ => Q a) : Coincide C Q p p := by
  induction p with
  | ret a => exact .ret h
  | fail e => exact .fail h
  | ask q k ih => exact .ask h.1 fun r hr => ih r (h.2 r () hr)

/-- The property of the common value can be weakened. -/
theorem Coincide.mono {P : α → Prop} (h : Coincide C Q p p') (hQ : ∀ a, Q a → P a) : Coincide C P p p' := by
  induction h with
  | ret h => exact .ret (hQ _ h)
  | fail h => exact .fail h
  | ask hpre _ ih => exact .ask hpre ih

/-- Coincidence composes: the continuations need to coincide only on the values that are returned.
-/
theorem Coincide.bind {f f' : α → Interaction Answer ε β} (h : Coincide C Q p p')
    (hf : ∀ a, Q a → Coincide C Q' (f a) (f' a)) : Coincide C Q' (p >>= f) (p' >>= f') := by
  induction h with
  | ret h => exact hf _ h
  | fail h => exact .fail h
  | ask hpre _ ih => exact .ask hpre ih

/-- What the second program returns under a contract that demands less of the answers. -/
theorem Coincide.and_wp {C' : Contract Answer ε Unit} {P : α → Prop} (h : Coincide C Q p p')
    (hp : Interaction.wp C' p' () fun a _ => P a)
    (hpost : ∀ q r, C.post () q r () → C'.post () q r ()) :
    Coincide C (fun a => Q a ∧ P a) p p' := by
  induction h with
  | ret h => exact .ret ⟨h, hp⟩
  | fail h => exact .fail h
  | ask hpre _ ih => exact .ask hpre fun r hr => ih r hr (hp.2 r () (hpost _ r hr))

/-- What the second program returns in any case. -/
theorem Coincide.and_returns {P : α → Prop} (h : Coincide C Q p p') (hp : p'.Returns P) :
    Coincide C (fun a => Q a ∧ P a) p p' := by
  induction h with
  | ret h => exact .ret ⟨h, hp⟩
  | fail h => exact .fail h
  | ask hpre _ ih => exact .ask hpre fun r hr => ih r hr (hp r)

/-- Against an environment that keeps the contract, the programs run in the same way. -/
theorem Coincide.run {env : Env Answer ε σ}
    (henv : ∀ q s r s', C.pre () q → env q s = .ok (r, s') → C.post () q r ())
    (h : Coincide C Q p p') (s : σ) : Interaction.run env p s = Interaction.run env p' s := by
  induction h generalizing s with
  | ret h => rfl
  | fail h => rfl
  | @ask q k k' hpre _ ih =>
    cases hq : env q s with
    | error e => rw [run_ask_error hq, run_ask_error hq]
    | ok x =>
      obtain ⟨r, s'⟩ := x
      rw [run_ask_ok hq, run_ask_ok hq]
      exact ih r (henv q s r s' hpre hq) s'

end Coincide

end Interaction
