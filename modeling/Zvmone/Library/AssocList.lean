import Mathlib.Algebra.BigOperators.Group.Finset.Basic
import Mathlib.Algebra.Order.BigOperators.Group.Finset
import Mathlib.Data.List.AList
import Mathlib.Tactic.Ring

/-! # Association lists as unordered maps

What Mathlib's `AList` lacks for modelling an unordered map: removing the entries that satisfy a
predicate, changing every value, and the sum of a quantity over all entries with the way each
operation changes it. -/

namespace AList

variable {α β γ : Type} [DecidableEq α] {a a' : α} {b : β} {s : AList fun _ : α => β}

/-- The entries that satisfy a predicate. -/
def filter (p : α → β → Bool) (s : AList fun _ : α => β) : AList fun _ : α => β where
  entries := s.entries.filter fun e => p e.1 e.2
  nodupKeys := s.nodupKeys.sublist List.filter_sublist

/-- Change every value. -/
def mapValues (f : β → γ) (s : AList fun _ : α => β) : AList fun _ : α => γ where
  entries := s.entries.map fun e => ⟨e.1, f e.2⟩
  nodupKeys := by
    have h := s.nodupKeys
    unfold List.NodupKeys List.keys at h ⊢
    rwa [List.map_map]

/-- The value at a key, or a default for an absent key. -/
def getD (s : AList fun _ : α => β) (a : α) (default : β) : β := (s.lookup a).getD default

/-- The entries are what can be looked up. -/
theorem mem_entries_iff {e : Sigma fun _ : α => β} : e ∈ s.entries ↔ s.lookup e.1 = some e.2 :=
  mem_lookup_iff.symm

/-- A value that is looked up is an entry. -/
theorem lookup_eq_some_iff_mem : s.lookup a = some b ↔ ⟨a, b⟩ ∈ s.entries :=
  mem_lookup_iff

omit [DecidableEq α] in
/-- Entries mapped to what identifies their keys stay distinct. -/
theorem nodup_map_entries (p : (Sigma fun _ : α => β) → Bool) (f : (Sigma fun _ : α => β) → γ)
    (h : ∀ e ∈ s.entries.filter p, ∀ e' ∈ s.entries.filter p, f e = f e' → e.1 = e'.1) :
    ((s.entries.filter p).map f).Nodup := by
  have hnodup : (s.entries.filter p).Nodup := (s.nodupKeys.nodup).filter p
  refine hnodup.map_on fun e he e' he' heq => ?_
  exact s.nodupKeys.eq_of_fst_eq (List.mem_of_mem_filter he) (List.mem_of_mem_filter he')
    (h e he e' he' heq)

/-- Looking up in a filtered map. -/
@[simp] theorem lookup_filter (p : α → β → Bool) (s : AList fun _ : α => β) (a : α) :
    (s.filter p).lookup a = (s.lookup a).filter (p a) := by
  ext b
  rw [Option.filter_eq_some_iff, lookup_eq_some_iff_mem,
    lookup_eq_some_iff_mem]
  exact List.mem_filter

/-- Looking up in a map with changed values. -/
@[simp] theorem lookup_mapValues (f : β → γ) (s : AList fun _ : α => β) (a : α) :
    (s.mapValues f).lookup a = (s.lookup a).map f := by
  ext c
  rw [Option.map_eq_some_iff, lookup_eq_some_iff_mem]
  simp only [lookup_eq_some_iff_mem, mapValues, List.mem_map]
  constructor
  · rintro ⟨⟨a₀, b₀⟩, hmem, heq⟩
    obtain ⟨rfl, rfl⟩ : a₀ = a ∧ f b₀ = c := by simpa using heq
    exact ⟨b₀, hmem, rfl⟩
  · rintro ⟨b₀, hmem, rfl⟩
    exact ⟨⟨a, b₀⟩, hmem, rfl⟩

/-- Looking a key up after an insertion. -/
theorem lookup_insert_eq_ite (s : AList fun _ : α => β) (a a' : α) (b : β) :
    (s.insert a' b).lookup a = if a = a' then some b else s.lookup a := by
  split
  next h => rw [h, lookup_insert]
  next h => exact lookup_insert_ne h

/-- The value of a key after an insertion, with a default. -/
theorem getD_insert (s : AList fun _ : α => β) (a a' : α) (b d : β) :
    (s.insert a' b).getD a d = if a = a' then b else s.getD a d := by
  unfold getD
  rw [lookup_insert_eq_ite]
  split <;> rfl

/-! ### Sums over all entries -/

section sum

variable {M : Type} [AddCommMonoid M] (f : α → β → M)

/-- The sum of a quantity over all entries. -/
def sumBy (s : AList fun _ : α => β) : M := (s.entries.map fun e => f e.1 e.2).sum

omit [DecidableEq α] in
/-- The empty map has the sum 0. -/
@[simp] theorem sumBy_empty : sumBy f ∅ = 0 := rfl

/-- A present key contributes its summand. -/
theorem sumBy_eq_add_erase (h : s.lookup a = some b) :
    sumBy f s = f a b + sumBy f (s.erase a) := by
  obtain ⟨b', l₁, l₂, -, hl, he⟩ := List.exists_of_kerase (mem_keys.1 (lookup_isSome.1 (by
    rw [h]; rfl : (s.lookup a).isSome)))
  have hb : b' = b := by
    have hmem : (⟨a, b'⟩ : Sigma fun _ : α => β) ∈ s.entries := by rw [hl]; simp
    have := lookup_eq_some_iff_mem.2 hmem
    rw [h] at this
    exact (Option.some.inj this).symm
  subst hb
  have herase : (s.erase a).entries = l₁ ++ l₂ := he
  unfold sumBy
  rw [herase, hl]
  simp only [List.map_append, List.map_cons, List.sum_append, List.sum_cons]
  rw [← add_assoc, add_comm (List.sum _) (f a b'), add_assoc]

/-- A new key adds its term. -/
theorem sumBy_insert_of_lookup_none (h : s.lookup a = none) :
    sumBy f (s.insert a b) = f a b + sumBy f s := by
  unfold sumBy
  rw [entries_insert_of_notMem (lookup_eq_none.1 h), List.map_cons, List.sum_cons]

/-- Overwriting an entry exchanges its summand. -/
theorem sumBy_insert_of_lookup_some {b' : β} (h : s.lookup a = some b') :
    sumBy f (s.insert a b) + f a b' = sumBy f s + f a b := by
  have hinsert : sumBy f (s.insert a b) = f a b + sumBy f (s.erase a) := rfl
  rw [hinsert, sumBy_eq_add_erase f h]
  ac_rfl

/-- Writing an entry exchanges its summand, where an absent one counts as a default without a
summand. -/
theorem sumBy_insert {d : β} (hd : f a d = 0) :
    sumBy f (s.insert a b) + f a (s.getD a d) = sumBy f s + f a b := by
  unfold getD
  cases h : s.lookup a with
  | none =>
    rw [Option.getD_none, hd, add_zero, sumBy_insert_of_lookup_none f h, add_comm]
  | some b' => exact sumBy_insert_of_lookup_some f h

/-- The sum as a sum over keys. -/
theorem sumBy_eq_sum {d : β} (hd : ∀ a, f a d = 0) {T : Finset α} (hT : ∀ a ∈ s, a ∈ T) :
    sumBy f s = ∑ a ∈ T, f a (s.getD a d) := by
  have hkeys : sumBy f s = ∑ a ∈ s.keys.toFinset, f a (s.getD a d) := by
    rw [List.sum_toFinset _ s.keys_nodup, sumBy, keys, List.keys, List.map_map]
    refine congrArg List.sum (List.map_congr_left fun e he => ?_)
    show f e.1 e.2 = f e.1 (s.getD e.1 d)
    rw [getD, mem_entries_iff.1 he, Option.getD_some]
  rw [hkeys]
  refine Finset.sum_subset (fun a ha => hT a (mem_keys.1 (List.mem_toFinset.1 ha))) fun a _ ha => ?_
  have hnone : s.lookup a = none :=
    lookup_eq_none.2 fun hmem => ha (List.mem_toFinset.2 (mem_keys.2 hmem))
  rw [getD, hnone, Option.getD_none, hd]

/-- Maps that agree at every key, up to defaults without a summand, have the same sum. -/
theorem sumBy_congr {s' : AList fun _ : α => β} {d : β} (hd : ∀ a, f a d = 0)
    (h : ∀ a, f a (s'.getD a d) = f a (s.getD a d)) : sumBy f s' = sumBy f s := by
  rw [sumBy_eq_sum f hd (T := s.keys.toFinset ∪ s'.keys.toFinset) fun a ha =>
      Finset.mem_union_right _ (List.mem_toFinset.2 (mem_keys.2 ha)),
    sumBy_eq_sum (s := s) f hd (T := s.keys.toFinset ∪ s'.keys.toFinset) fun a ha =>
      Finset.mem_union_left _ (List.mem_toFinset.2 (mem_keys.2 ha))]
  exact Finset.sum_congr rfl fun a _ => h a

/-- Removing entries that contribute nothing keeps the sum. -/
theorem sumBy_filter (p : α → β → Bool) (h : ∀ a b, s.lookup a = some b → p a b = false → f a b = 0) :
    sumBy f (s.filter p) = sumBy f s := by
  have key : ∀ l : List (Sigma fun _ : α => β), (∀ e ∈ l, p e.1 e.2 = false → f e.1 e.2 = 0) →
      ((l.filter fun e => p e.1 e.2).map fun e => f e.1 e.2).sum
        = (l.map fun e => f e.1 e.2).sum := by
    intro l hl
    induction l with
    | nil => rfl
    | cons e l ih =>
      have ih := ih fun e he => hl e (List.mem_cons_of_mem _ he)
      by_cases hp : p e.1 e.2 = true
      · simp only [List.filter_cons, hp, if_true, List.map_cons, List.sum_cons, ih]
      · have hzero : f e.1 e.2 = 0 := hl e List.mem_cons_self (by simpa using hp)
        simp only [List.filter_cons, hp, Bool.false_eq_true, if_false, List.map_cons, List.sum_cons, ih, hzero,
          zero_add]
  exact key _ fun e he => h e.1 e.2 (mem_entries_iff.1 he)

end sum

section sumNat

variable {M : Type} [AddCommMonoid M] [PartialOrder M] [IsOrderedAddMonoid M] (f : α → β → M)

omit [DecidableEq α] in
/-- A sum of summands that are not negative is not negative. -/
theorem sumBy_nonneg (s : AList fun _ : α => β) (h : ∀ a b, 0 ≤ f a b) : 0 ≤ sumBy f s :=
  List.sum_nonneg fun x hx => by
    obtain ⟨e, -, rfl⟩ := List.mem_map.1 hx
    exact h e.1 e.2

/-- A term that is not negative is at most the sum. -/
theorem le_sumBy {d : β} (hd : ∀ a, f a d = 0) (hf : ∀ a b, 0 ≤ f a b) :
    f a (s.getD a d) ≤ sumBy f s := by
  rw [sumBy_eq_sum f hd (T := s.keys.toFinset ∪ {a}) fun a ha =>
    Finset.mem_union_left _ (List.mem_toFinset.2 (mem_keys.2 ha))]
  exact Finset.single_le_sum (f := fun a => f a (s.getD a d)) (fun _ _ => hf _ _)
    (Finset.mem_union_right _ (Finset.mem_singleton_self a))

end sumNat

end AList
