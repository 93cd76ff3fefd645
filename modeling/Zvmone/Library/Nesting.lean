import Mathlib.Data.List.Basic
import Mathlib.Tactic.Common
import Zvmone.Library.Observers

/-! # Well-nested signals

A recursive process signals when an activity opens, when something happens inside it, and when it
closes. The signals of a whole run are the brackets of a `Forest`: inside an activity things happen and
further activities open and close.

An observer that takes the signals one by one has to keep a stack, as it is inside several activities at
a time. What it makes of them is said by recursion on the forest (`Forest.render`): what becomes of a
signal depends on the innermost open activity and on what has happened in it itself. `Follows` connects
the two signal by signal, and `Follows.signals` for a whole forest. -/

/-- What a recursive process signals. -/
inductive Signal (α β γ : Type) where
  /-- An activity opens. -/
  | opens (a : α)
  /-- Something happens in the innermost open activity. -/
  | happens (b : β)
  /-- The innermost open activity closes. -/
  | closes (c : γ)

/-- What happens in an activity, and the activities inside it, in order. -/
inductive Forest (α β γ : Type) where
  | nil
  | leaf (b : β) (rest : Forest α β γ)
  | node (a : α) (inner : Forest α β γ) (c : γ) (rest : Forest α β γ)

namespace Forest

open Interaction

variable {α β γ Out ε S : Type}

/-- The signals of a forest. -/
def signals : Forest α β γ → List (Signal α β γ)
  | .nil => []
  | .leaf b rest => .happens b :: rest.signals
  | .node a inner c rest => .opens a :: (inner.signals ++ .closes c :: rest.signals)

/-- One forest after another. -/
def append : Forest α β γ → Forest α β γ → Forest α β γ
  | .nil, g => g
  | .leaf b rest, g => .leaf b (rest.append g)
  | .node a inner c rest, g => .node a inner c (rest.append g)

/-- What happens in the activity itself, and not in those inside it. -/
def own : Forest α β γ → List β
  | .nil => []
  | .leaf b rest => b :: rest.own
  | .node _ _ _ rest => rest.own

/-- What happens in the activity itself and in those inside it. -/
def leaves : Forest α β γ → List β
  | .nil => []
  | .leaf b rest => b :: rest.leaves
  | .node _ inner _ rest => inner.leaves ++ rest.leaves

/-- The openings of the activities directly inside. -/
def starts : Forest α β γ → List α
  | .nil => []
  | .leaf _ rest => rest.starts
  | .node a _ _ rest => a :: rest.starts

/-- Every activity, however deep inside, satisfies `Q`. -/
def All (Q : α → Forest α β γ → γ → Prop) : Forest α β γ → Prop
  | .nil => True
  | .leaf _ rest => rest.All Q
  | .node a inner c rest => Q a inner c ∧ inner.All Q ∧ rest.All Q

/-- All activities in the order in which they close, each with what happens in it itself. -/
def closings : Forest α β γ → List (α × List β × γ)
  | .nil => []
  | .leaf _ rest => rest.closings
  | .node a inner c rest => inner.closings ++ (a, inner.own, c) :: rest.closings

section append

variable (f g : Forest α β γ)

/-- Signals of two forests in a row. -/
@[simp] theorem signals_append : (f.append g).signals = f.signals ++ g.signals := by
  induction f with
  | nil => rfl
  | leaf b rest ih => simp [append, signals, ih]
  | node a inner c rest _ ih => simp [append, signals, ih]

/-- The leaves at the root of two forests in a row. -/
@[simp] theorem own_append : (f.append g).own = f.own ++ g.own := by
  induction f with
  | nil => rfl
  | leaf b rest ih => simp [append, own, ih]
  | node a inner c rest _ ih => simp [append, own, ih]

/-- All leaves of two forests in a row. -/
@[simp] theorem leaves_append : (f.append g).leaves = f.leaves ++ g.leaves := by
  induction f with
  | nil => rfl
  | leaf b rest ih => simp [append, leaves, ih]
  | node a inner c rest _ ih => simp [append, leaves, ih]

/-- The starts of two forests in a row. -/
@[simp] theorem starts_append : (f.append g).starts = f.starts ++ g.starts := by
  induction f with
  | nil => rfl
  | leaf b rest ih => simp [append, starts, ih]
  | node a inner c rest _ ih => simp [append, starts, ih]

/-- A property of all trees of two forests in a row. -/
@[simp] theorem all_append {Q : α → Forest α β γ → γ → Prop} :
    (f.append g).All Q ↔ f.All Q ∧ g.All Q := by
  induction f with
  | nil => simp [append, All]
  | leaf b rest ih => simp [append, All, ih]
  | node a inner c rest _ ih => simp [append, All, ih, and_assoc]

end append

/-- The property of the trees can be weakened. -/
theorem All.imp {Q Q' : α → Forest α β γ → γ → Prop} {f : Forest α β γ} (h : f.All Q)
    (himp : ∀ a g c, Q a g c → Q' a g c) : f.All Q' := by
  induction f with
  | nil => trivial
  | leaf b rest ih => exact ih h
  | node a inner c rest ihinner ihrest =>
    exact ⟨himp a inner c h.1, ihinner h.2.1, ihrest h.2.2⟩

/-- What holds of all activities, for the list of them. -/
theorem All.closings {Q : α → Forest α β γ → γ → Prop} {f : Forest α β γ} (h : f.All Q)
    {x : α × List β × γ} (hx : x ∈ f.closings) : ∃ g, g.own = x.2.1 ∧ Q x.1 g x.2.2 := by
  induction f with
  | nil => cases hx
  | leaf b rest ih => exact ih h hx
  | node a inner c rest ihinner ihrest =>
    obtain ⟨hnode, hinner, hrest⟩ := h
    rcases List.mem_append.1 hx with hx | hx
    · exact ihinner hinner hx
    · rcases List.mem_cons.1 hx with rfl | hx
      · exact ⟨inner, rfl, hnode⟩
      · exact ihrest hrest hx

/-! ### Observers with a stack -/

/-- What becomes of a signal: it depends on the innermost open activity and on what has happened in it
before. -/
structure Renderer (α β γ Out : Type) where
  opens : α → Out → Out
  happens : α → List β → β → Out → Out
  closes : α → List β → γ → Out → Out

/-- What becomes of a forest inside the activity `a`, in which `seen` has happened before. -/
def render (r : Renderer α β γ Out) (a : α) (seen : List β) : Forest α β γ → Out → Out
  | .nil, o => o
  | .leaf b rest, o => rest.render r a (seen ++ [b]) (r.happens a seen b o)
  | .node a' inner c rest, o =>
    rest.render r a seen (r.closes a' inner.own c (inner.render r a' [] (r.opens a' o)))

/-- An observer with states `view stack o`, where `stack` has the open activities, each with what has
happened in it, follows a renderer. Of what happens it is only known that `ok` holds. -/
structure Follows (observer : Observer (Signal α β γ) ε S) (view : List (α × List β) → Out → S)
    (r : Renderer α β γ Out) (ok : α → β → Prop) : Prop where
  opens : ∀ stack a o,
    observer (.opens a) (view stack o) = .ok (view ((a, []) :: stack) (r.opens a o))
  happens : ∀ stack a seen b o, ok a b → observer (.happens b) (view ((a, seen) :: stack) o) =
    .ok (view ((a, seen ++ [b]) :: stack) (r.happens a seen b o))
  closes : ∀ stack a seen c o, observer (.closes c) (view ((a, seen) :: stack) o) =
    .ok (view stack (r.closes a seen c o))

section Follows

variable {observer : Observer (Signal α β γ) ε S} {view : List (α × List β) → Out → S}
  {r : Renderer α β γ Out} {ok : α → β → Prop}

/-- The observer takes the signals of a forest as the renderer says, and its stack is as before. -/
theorem Follows.signals (h : Follows observer view r ok) {f : Forest α β γ} {a : α}
    (hown : ∀ b ∈ f.own, ok a b) (hall : f.All fun a inner _ => ∀ b ∈ inner.own, ok a b)
    (stack : List (α × List β)) (seen : List β) (o : Out) :
    observer.take f.signals (view ((a, seen) :: stack) o) =
      .ok (view ((a, seen ++ f.own) :: stack) (f.render r a seen o)) := by
  induction f generalizing a stack seen o with
  | nil => simp [Forest.signals, Observer.take, own, render]
  | leaf b rest ih =>
    have hb := h.happens stack a seen b o (hown b List.mem_cons_self)
    have hrest := ih (fun b' hb' => hown b' (List.mem_cons_of_mem b hb')) hall stack (seen ++ [b])
      (r.happens a seen b o)
    rw [Forest.signals, Observer.take_cons hb, hrest, own, List.append_assoc, List.singleton_append,
      render]
  | node a' inner c rest ihinner ihrest =>
    obtain ⟨hown', hinner, hrest⟩ := hall
    -- Inside the new activity the stack is one higher, and nothing has happened in it yet.
    have hin := ihinner hown' hinner ((a, seen) :: stack) [] (r.opens a' o)
    have hclose := h.closes ((a, seen) :: stack) a' inner.own c (inner.render r a' [] (r.opens a' o))
    rw [List.nil_append] at hin
    rw [Forest.signals, Observer.take_cons (h.opens _ a' o), Observer.take_append, hin]
    simp only [Observer.take_cons hclose]
    exact ihrest hown hrest stack seen _

end Follows

/-- What becomes of a forest that is not inside an activity. -/
def renderAll (r : Renderer α β γ Out) : Forest α β γ → Out → Out
  | .nil, o => o
  | .leaf _ rest, o => rest.renderAll r o
  | .node a inner c rest, o =>
    rest.renderAll r (r.closes a inner.own c (inner.render r a [] (r.opens a o)))

/-- Outside all activities nothing happens. -/
theorem Follows.all {observer : Observer (Signal α β γ) ε S} {view : List (α × List β) → Out → S}
    {r : Renderer α β γ Out} {ok : α → β → Prop} (h : Follows observer view r ok)
    {f : Forest α β γ} (hown : f.own = [])
    (hall : f.All fun a inner _ => ∀ b ∈ inner.own, ok a b) (stack : List (α × List β)) (o : Out) :
    observer.take f.signals (view stack o) = .ok (view stack (f.renderAll r o)) := by
  induction f generalizing o with
  | nil => rfl
  | leaf b rest => cases hown
  | node a inner c rest _ ih =>
    obtain ⟨hinner, hdeep, hrest⟩ := hall
    have hin := h.signals hinner hdeep stack [] (r.opens a o)
    have hclose := h.closes stack a inner.own c (inner.render r a [] (r.opens a o))
    rw [List.nil_append] at hin
    rw [Forest.signals, Observer.take_cons (h.opens _ a o), Observer.take_append, hin]
    simp only [Observer.take_cons hclose]
    exact ih hown hrest _

end Forest
