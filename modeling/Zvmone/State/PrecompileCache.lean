import Zvmone.State.PrecompileBuffer
import Zvmone.Vm.FailureKinds

/-! # The cache of precompile results

The cache is static: it is filled by every transaction and by calls that are reverted later. What
it holds is `Sound`: for the identity function, at the position 3 of the table, the inputs that it
returned, and failures for the others. With a sound cache a precompile answers as without one, but
for the kind of its failures (`callPrecompile_alike`), unless the hashes of two inputs of the
identity function collide. -/

namespace Zvmone

namespace Precompiles

/-- How two calls of a precompile end: with the same fault, both not served, or with results that are
alike. -/
inductive ResultsAlike :
    Except Fault (Option CallResult) → Except Fault (Option CallResult) → Prop
  | fault (e : Fault) : ResultsAlike (.error e) (.error e)
  | unserved : ResultsAlike (.ok none) (.ok none)
  | served {r r' : CallResult} (h : r.Alike r') : ResultsAlike (.ok (some r)) (.ok (some r'))

/-- A result is like itself. -/
theorem ResultsAlike.refl (x : Except Fault (Option CallResult)) : ResultsAlike x x := by
  rcases x with e | _ | r
  · exact .fault e
  · exact .unserved
  · exact .served (.refl r)

/-- Being alike is symmetric. -/
theorem ResultsAlike.symm {x y : Except Fault (Option CallResult)} (h : ResultsAlike x y) :
    ResultsAlike y x := by
  cases h with
  | fault e => exact .fault e
  | unserved => exact .unserved
  | served h => exact .served h.symm

/-- Being alike is transitive. -/
theorem ResultsAlike.trans {x y z : Except Fault (Option CallResult)} (h : ResultsAlike x y)
    (h' : ResultsAlike y z) : ResultsAlike x z := by
  cases h with
  | fault e => exact h'
  | unserved => exact h'
  | served h =>
    cases h' with
    | served h' => exact .served (h.trans h')

variable [Ethash] {K : Set Bytes} {cache : Cache} {id : Fin numPrecompiles} {msg : Message}

/-- What an entry of the cache records: an input of the identity function that is in `K`, or the
failure of another precompile. Results of the precompile at the position 4 are not cached, for that
is the id of the identity function. -/
inductive Cache.Entry (K : Set Bytes) (id : Fin numPrecompiles) (hash : Bytes32) :
    Option Bytes → Prop
  | identity {input : Bytes} (hid : id.val = 3) (hmem : input ∈ K)
      (hhash : Ethash.keccak256 input = hash) (hsize : input.length ≤ outputBufSize) :
      Entry K id hash (some input)
  | failure (hid : id.val ≠ 3) (hid' : id.val ≠ 4) : Entry K id hash none

/-- All entries of the cache record executions. -/
def Cache.Sound (K : Set Bytes) (cache : Cache) : Prop :=
  ∀ id hash entry, (cache id).lookup hash = some entry → Cache.Entry K id hash entry

/-- The empty cache is sound. -/
theorem Cache.sound_empty (K : Set Bytes) : Cache.Sound K fun _ => ∅ := by
  intro id hash entry h
  cases h

/-- Inserting an entry of its own precompile keeps the cache sound. -/
theorem Cache.Sound.insert (h : Cache.Sound K cache) {input : Bytes} {result : CallResult}
    (hentry : id.val ≠ 4 → Cache.Entry K id (Ethash.keccak256 input)
      (if result.statusCode = .success then some result.outputData else none)) :
    Cache.Sound K (cache.insert id input result) := by
  intro id' hash entry hlookup
  unfold Cache.insert at hlookup
  split at hlookup
  next => exact h id' hash entry hlookup
  next hid =>
    dsimp only at hlookup
    generalize (if result.statusCode = .success then some result.outputData else none) = new
      at hentry hlookup
    split at hlookup
    next => exact h id' hash entry hlookup
    next =>
      dsimp only at hlookup
      split at hlookup
      -- Only the entry that was asked for is new.
      next heq =>
        subst heq
        rw [AList.lookup_insert_eq_ite] at hlookup
        split at hlookup
        next hhash =>
          obtain rfl := Option.some.inj hlookup
          exact hhash ▸ hentry hid
        next => exact h id' hash entry hlookup
      next => exact h id' hash entry hlookup

/-- The execution of a precompile leaves a sound cache. -/
theorem executeWith_sound {analyze : AnalyzeFn} {execute : ExecuteFn} {maxOutputSize : Nat}
    {gasLeft : Int} (h : Cache.Sound K cache) (hanalyze : (traits id).analyze = some analyze)
    (hexecute : (traits id).execute = some execute) {input : Bytes}
    (hsize : (analyze.call input).maxOutputSize ≤ outputBufSize) (hK : id.val = 3 → input ∈ K) :
    Cache.Sound K (executeWith execute id cache input maxOutputSize gasLeft).2 := by
  unfold executeWith
  split
  next => exact h
  next status output hcall =>
    refine h.insert fun hid => ?_
    rcases entry_cases hanalyze with ⟨hid₃, rfl, hidentity⟩ | ⟨⟨hid₃, p, hdummy⟩, -⟩
    · -- The identity function succeeds with its input.
      obtain rfl := Option.some.inj (hexecute.symm.trans hidentity)
      have hcall : identityExecute input maxOutputSize = .ok ⟨status, output⟩ := hcall
      unfold identityExecute at hcall
      split at hcall
      · cases hcall
        exact .identity hid₃ (hK hid₃) rfl hsize
      · cases hcall
    · obtain rfl := Option.some.inj (hexecute.symm.trans hdummy)
      cases hcall
      exact .failure hid₃ hid

/-- Calling a precompile keeps the cache sound. -/
theorem callWith_sound (h : Cache.Sound K cache) (hK : id.val = 3 → msg.inputData ∈ K) :
    Cache.Sound K (callWith (traits id) id cache msg).cache := by
  unfold callWith
  split
  next => exact h
  next analyze hanalyze =>
    dsimp only
    split
    next => exact h
    next =>
      split
      next => exact h
      next =>
        split
        next => exact h
        next hsize =>
          split
          next => exact h
          next execute hexecute =>
            exact executeWith_sound h hanalyze hexecute (not_lt.1 hsize) hK

/-- A call of a precompile leaves a sound cache. -/
theorem callPrecompile_sound (h : Cache.Sound K cache)
    (hK : msg.codeAddress = 3 → msg.inputData ∈ K) :
    Cache.Sound K (callPrecompile cache msg).cache := by
  unfold callPrecompile
  split
  next => exact h
  next =>
    split
    next => exact h
    next => exact callWith_sound h fun hid => hK (BitVec.eq_of_toNat_eq hid)

/-! ### With and without the cache -/

/-- The result that an entry of the cache stands for. -/
def Cache.resultOf (gasLeft : Int) : Option Bytes → CallResult
  | none => { statusCode := .precompileFailure }
  | some o => { statusCode := .success, gasLeft, outputData := o }

/-- An entry of a sound cache stands for the execution. -/
theorem Cache.Entry.executed (hinj : Set.InjOn Ethash.keccak256 K) {analyze : AnalyzeFn}
    (hanalyze : (traits id).analyze = some analyze) {input : Bytes} {entry : Option Bytes}
    (hK : id.val = 3 → input ∈ K) (h : Cache.Entry K id (Ethash.keccak256 input) entry) :
    (analyze.call input).maxOutputSize ≤ outputBufSize ∧
      ∃ execute, (traits id).execute = some execute ∧ ∀ cache gasLeft, ∃ r,
        (executeWith execute id cache input (analyze.call input).maxOutputSize gasLeft).1 = .ok r ∧
        r.Alike (Cache.resultOf gasLeft entry) := by
  cases h with
  | @identity o hid hmem hhash hsize =>
    -- Without a collision the cached input is the input of this message.
    obtain rfl : o = input := hinj hmem (hK hid) hhash
    rcases entry_cases hanalyze with ⟨-, rfl, hidentity⟩ | ⟨⟨hid', -⟩, -⟩
    · exact ⟨hsize, .identity, hidentity, fun cache gasLeft =>
        ⟨_, executeWith_identity id cache o gasLeft, .refl _⟩⟩
    · exact absurd hid hid'
  | failure hid hid' =>
    rcases entry_cases hanalyze with ⟨hid₃, -⟩ | ⟨⟨-, p, hdummy⟩, ⟨hid₄, -⟩ | ⟨-, hsmall⟩⟩
    · exact absurd hid₃ hid
    · exact absurd hid₄ hid'
    · have hfail : CallResult.Alike { statusCode := .internalError }
          { statusCode := .precompileFailure } := ⟨rfl, .inr ⟨by decide, by decide⟩⟩
      exact ⟨(hsmall input).trans (by decide), .dummy p, hdummy, fun cache gasLeft =>
        ⟨_, rfl, hfail⟩⟩

/-- Reading the cache. -/
theorem Cache.find_eq (cache : Cache) (id : Fin numPrecompiles) (input : Bytes) (gasLeft : Int) :
    cache.find id input gasLeft =
      ((cache id).lookup (Ethash.keccak256 input)).map (Cache.resultOf gasLeft) := by
  unfold Cache.find
  rcases (cache id).lookup (Ethash.keccak256 input) with _ | _ | o <;> rfl

/-- The outcome of an execution does not depend on the cache. -/
theorem executeWith_fst (execute : ExecuteFn) (cache cache' : Cache) (input : Bytes)
    (maxOutputSize : Nat) (gasLeft : Int) :
    (executeWith execute id cache input maxOutputSize gasLeft).1
      = (executeWith execute id cache' input maxOutputSize gasLeft).1 := by
  unfold executeWith
  split <;> rfl

/-- With a sound cache a precompile answers as without. -/
theorem callWith_alike_empty (hinj : Set.InjOn Ethash.keccak256 K) (h : Cache.Sound K cache)
    (hK : id.val = 3 → msg.inputData ∈ K) :
    ResultsAlike (callWith (traits id) id (fun _ => ∅) msg).result
      (callWith (traits id) id cache msg).result := by
  unfold callWith
  cases hanalyze : (traits id).analyze with
  | none => exact .refl _
  | some analyze =>
    dsimp only
    by_cases hgas : msg.gas - (analyze.call msg.inputData).gasCost < 0
    · rw [if_pos hgas, if_pos hgas]
      exact .refl _
    rw [if_neg hgas, if_neg hgas]
    have hempty : Cache.find (fun _ => ∅) id msg.inputData
        (msg.gas - (analyze.call msg.inputData).gasCost) = none := rfl
    rw [hempty, Cache.find_eq]
    cases hlookup : (cache id).lookup (Ethash.keccak256 msg.inputData) with
    | none =>
      -- Both execute the precompile.
      simp only [Option.map_none]
      split
      · exact .refl _
      · cases (traits id).execute with
        | none => exact .refl _
        | some execute =>
          dsimp only
          rw [executeWith_fst execute (fun _ => ∅) cache]
          exact .refl _
    | some entry =>
      obtain ⟨hsize, execute, hexecute, hexecuted⟩ :=
        (h id _ entry hlookup).executed hinj hanalyze hK
      obtain ⟨r, hr, halike⟩ :=
        hexecuted (fun _ => ∅) (msg.gas - (analyze.call msg.inputData).gasCost)
      simp only [Option.map_some]
      rw [if_neg (not_lt.2 hsize), hexecute]
      dsimp only
      rw [hr]
      exact .served halike

/-- Sound caches make no difference but for the kind of failures. -/
theorem callPrecompile_alike {cache' : Cache} (hinj : Set.InjOn Ethash.keccak256 K)
    (h : Cache.Sound K cache) (h' : Cache.Sound K cache')
    (hK : msg.codeAddress = 3 → msg.inputData ∈ K) :
    ResultsAlike (callPrecompile cache msg).result (callPrecompile cache' msg).result := by
  unfold callPrecompile
  split
  next => exact .unserved
  next =>
    split
    next => exact .fault _
    next =>
      have hK : ∀ id : Fin numPrecompiles, msg.codeAddress.toNat = id.val → id.val = 3 →
          msg.inputData ∈ K := fun id hid h₃ => hK (BitVec.eq_of_toNat_eq (hid.trans h₃))
      exact (callWith_alike_empty hinj h (hK _ rfl)).symm.trans
        (callWith_alike_empty hinj h' (hK _ rfl))

end Precompiles

end Zvmone
