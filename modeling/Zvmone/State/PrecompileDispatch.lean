import Zvmone.State.Precompiles

/-! # Dispatch to precompiled contracts

The ids of precompiles have holes, the table of handlers is positional. `DispatchAgrees` says what
the ids promise of a message: it is served by the precompile whose id is its code address. The main
result `dispatchAgrees_iff` says for which code addresses the positional table keeps the promise. -/

namespace Zvmone

namespace Precompiles

/-! ### What the ids promise -/

/-- The gas formula written for a precompile. -/
def ownAnalyze : PrecompileId → AnalyzeFn
  | .depositroot => .depositroot
  | .sha256 => .sha256
  | .identity => .identity
  | .expmod => .expmod
  | .ecadd => .ecadd
  | .ecmul => .ecmul
  | .ecpairing => .ecpairing

/-- The executor written for a precompile. -/
def ownExecute : PrecompileId → ExecuteFn
  | .identity => .identity
  | p => .dummy p

/-- The handlers of a precompile: its own gas formula and its own executor. -/
def ownTraits (p : PrecompileId) : PrecompileTraits := ⟨some (ownAnalyze p), some (ownExecute p)⟩

/-- The table has a place for every id. -/
theorem toNat_lt_numPrecompiles (p : PrecompileId) : p.toNat < numPrecompiles := by
  cases p <;> decide

/-- The id of a precompile as an index into the table. -/
def index (p : PrecompileId) : Fin numPrecompiles := ⟨p.toNat, toNat_lt_numPrecompiles p⟩

/-- `ofAddress` finds exactly the address whose value is the id. -/
theorem ofAddress_eq_some {addr : Address} {p : PrecompileId}
    (h : PrecompileId.ofAddress addr = some p) : addr.toNat = p.toNat := by
  unfold PrecompileId.ofAddress at h
  split at h <;> simp_all [PrecompileId.toNat] <;> subst h <;> rfl

section dispatch

variable [Ethash] {cache : Cache} {msg : Message}

/-- What the precompile ids promise of a message. -/
structure DispatchAgrees (cache : Cache) (msg : Message) : Prop where
  /-- A message to a precompile is charged by its own formula and served by its own executor. -/
  own : ∀ p, PrecompileId.ofAddress msg.codeAddress = some p →
    callPrecompile cache msg = callWith (ownTraits p) (index p) cache msg
  /-- The identity precompile returns its input and charges 15 gas and 3 more a word. -/
  identity : PrecompileId.ofAddress msg.codeAddress = some .identity →
    msg.inputData.length ≤ 256 →
    15 + 3 * (((msg.inputData.length + 31) / 32 : Nat) : Int) ≤ msg.gas →
    (∀ gasLeft, cache.find (index .identity) msg.inputData gasLeft = none) →
    (callPrecompile cache msg).result = .ok (some {
      statusCode := .success
      gasLeft := msg.gas - (15 + 3 * (((msg.inputData.length + 31) / 32 : Nat) : Int))
      outputData := msg.inputData })
  /-- A message to any other address is not served. -/
  other : PrecompileId.ofAddress msg.codeAddress = none →
    (callPrecompile cache msg).result = .ok none
  /-- No null pointer is called. -/
  noNull : (callPrecompile cache msg).result ≠ .error .nullPointer

/-! ### The dispatch by position -/

/-- Outside `1..9` no precompile is called. -/
theorem callPrecompile_of_outside (h : msg.codeAddress = 0 ∨ msg.codeAddress.toNat ≥ numPrecompiles) :
    callPrecompile cache msg = { cache } := by
  rw [callPrecompile, dif_pos h]

/-- In `1..9` the table decides by position. -/
theorem callPrecompile_of_inside {id : Fin numPrecompiles} (hid : msg.codeAddress.toNat = id.val)
    (hpos : id.val ≠ 0) (hgas : 0 ≤ msg.gas) :
    callPrecompile cache msg = callWith (traits id) id cache msg := by
  have hin : ¬ (msg.codeAddress = 0 ∨ msg.codeAddress.toNat ≥ numPrecompiles) := by
    rintro (h | h)
    · rw [h] at hid
      exact hpos hid.symm
    · exact absurd id.isLt (by omega)
  have hfin : (⟨msg.codeAddress.toNat, by omega⟩ : Fin numPrecompiles) = id := Fin.ext hid
  rw [callPrecompile, dif_neg hin, if_neg (by omega)]
  simp only [hfin]

/-- The gas formula that was called is the one in the table, however the call ends. -/
theorem callWith_analyzed (traits : PrecompileTraits) (id : Fin numPrecompiles) :
    (callWith traits id cache msg).analyzed = traits.analyze := by
  unfold callWith
  split
  next h => exact h.symm
  next h =>
    rw [h]
    dsimp only
    split <;> try rfl
    split <;> try rfl
    split <;> try rfl
    split <;> rfl

/-- A precompile that is called never answers `std::nullopt`. -/
theorem callWith_result_ne_none (traits : PrecompileTraits) (id : Fin numPrecompiles) :
    (callWith traits id cache msg).result ≠ .ok none := by
  unfold callWith
  split
  next => simp
  next =>
    dsimp only
    split
    next => simp
    next =>
      split
      next => simp
      next =>
        split
        next => simp
        next =>
          split
          next => simp
          next execute _ =>
            cases (executeWith execute id cache msg.inputData _ _).1 <;> simp [Except.map]

omit [Ethash] in
/-- No executor accesses memory through a null pointer. -/
theorem call_ne_nullPointer (execute : ExecuteFn) (input : Bytes) (outputSize : Nat) :
    execute.call input outputSize ≠ .error .nullPointer := by
  cases execute with
  | identity =>
    simp only [ExecuteFn.call, identityExecute]
    split <;> simp
  | dummy => simp [ExecuteFn.call, dummyExecute]

/-- Running an executor reaches no null pointer. -/
theorem executeWith_ne_nullPointer (execute : ExecuteFn) (id : Fin numPrecompiles) (input : Bytes)
    (maxOutputSize : Nat) (gasLeft : Int) :
    (executeWith execute id cache input maxOutputSize gasLeft).1 ≠ .error .nullPointer := by
  have hcall := call_ne_nullPointer execute input maxOutputSize
  unfold executeWith
  split
  next e h =>
    rw [h] at hcall
    simpa using hcall
  next => simp

omit [Ethash] in
/-- Nor does a result that is wrapped. -/
theorem map_some_ne_nullPointer {result : Except Fault CallResult}
    (h : result ≠ .error .nullPointer) : result.map some ≠ .error .nullPointer := by
  cases result with
  | ok r => simp [Except.map]
  | error e => simpa [Except.map] using h

/-- With both handlers present, no null pointer is called. -/
theorem callWith_ownTraits_ne_nullPointer (p : PrecompileId) (id : Fin numPrecompiles) :
    (callWith (ownTraits p) id cache msg).result ≠ .error .nullPointer := by
  simp only [callWith, ownTraits]
  split
  next => simp
  next =>
    split
    next => simp
    next =>
      split
      next => simp
      next => exact map_some_ne_nullPointer (executeWith_ne_nullPointer _ _ _ _ _)

/-- The code addresses whose messages are served as the ids promise. -/
def ServedById (addr : Address) : Prop := addr.toNat ≤ 2 ∨ numPrecompiles ≤ addr.toNat

/-- The two precompiles whose id is also their position in the table. -/
theorem dispatchAgrees_of_traits {p : PrecompileId} (hp : p ≠ .identity)
    (haddr : PrecompileId.ofAddress msg.codeAddress = some p)
    (htraits : traits (index p) = ownTraits p) (hgas : 0 ≤ msg.gas) :
    DispatchAgrees cache msg := by
  have hcall : callPrecompile cache msg = callWith (ownTraits p) (index p) cache msg := by
    rw [← htraits]
    exact callPrecompile_of_inside (ofAddress_eq_some haddr) (by cases p <;> decide) hgas
  refine ⟨?_, ?_, ?_, ?_⟩
  · intro p' hp'
    rw [haddr] at hp'
    rwa [← Option.some.inj hp']
  · intro hid
    rw [haddr] at hid
    exact absurd (Option.some.inj hid) hp
  · intro hnone
    rw [haddr] at hnone
    cases hnone
  · rw [hcall]
    exact callWith_ownTraits_ne_nullPointer p _

/-- Addresses outside the table are not served, and no id lies there. -/
theorem dispatchAgrees_of_outside
    (h : msg.codeAddress = 0 ∨ msg.codeAddress.toNat ≥ numPrecompiles) :
    DispatchAgrees cache msg := by
  have hnone : PrecompileId.ofAddress msg.codeAddress = none := by
    cases hof : PrecompileId.ofAddress msg.codeAddress with
    | none => rfl
    | some p =>
      have heq := ofAddress_eq_some hof
      have hlt := toNat_lt_numPrecompiles p
      rcases h with h | h
      · rw [h] at hof
        cases hof
      · omega
  refine ⟨?_, ?_, fun _ => ?_, ?_⟩
  · intro p hp
    rw [hnone] at hp
    cases hp
  · intro hid
    rw [hnone] at hid
    cases hid
  · rw [callPrecompile_of_outside h]
  · rw [callPrecompile_of_outside h]
    simp

/-- From `3` to `9` the handler at the position of the address is not the one the id promises. -/
theorem not_dispatchAgrees_of_shifted {id : Fin numPrecompiles}
    (hid : msg.codeAddress.toNat = id.val) (h3 : 3 ≤ id.val) (hgas : 0 ≤ msg.gas) :
    ¬ DispatchAgrees cache msg := by
  intro hagrees
  have hcall : callPrecompile cache msg = callWith (traits id) id cache msg :=
    callPrecompile_of_inside hid (by omega) hgas
  cases hof : PrecompileId.ofAddress msg.codeAddress with
  | none =>
    -- The holes `3` and `9`: a handler, or a null pointer, is called anyway.
    have hother := hagrees.other hof
    rw [hcall] at hother
    exact callWith_result_ne_none _ _ hother
  | some p =>
    -- An id from `4` to `8`: the table holds the gas formula of another precompile.
    have hown := congrArg Call.analyzed (hagrees.own p hof)
    rw [hcall, callWith_analyzed, callWith_analyzed] at hown
    have hindex : id = index p := Fin.ext (hid.symm.trans (ofAddress_eq_some hof))
    subst hindex
    revert hown h3
    cases p <;> decide

/-- The dispatch keeps the promise of the ids exactly for the code addresses `0`, `1`, `2` and from
`10` on. -/
theorem dispatchAgrees_iff (hgas : 0 ≤ msg.gas) :
    DispatchAgrees cache msg ↔ ServedById msg.codeAddress := by
  constructor
  · intro hagrees
    by_contra hserved
    unfold ServedById at hserved
    have hid : msg.codeAddress.toNat
        = (⟨msg.codeAddress.toNat, by omega⟩ : Fin numPrecompiles).val := rfl
    exact not_dispatchAgrees_of_shifted hid (by omega) hgas hagrees
  · rintro (hle | hge)
    · have hcases : msg.codeAddress.toNat = 0 ∨ msg.codeAddress.toNat = 1 ∨
          msg.codeAddress.toNat = 2 := by omega
      rcases hcases with h | h | h
      · exact dispatchAgrees_of_outside (.inl (BitVec.eq_of_toNat_eq h))
      · exact dispatchAgrees_of_traits (p := .depositroot) (by decide)
          (by simp only [PrecompileId.ofAddress, h]) rfl hgas
      · exact dispatchAgrees_of_traits (p := .sha256) (by decide)
          (by simp only [PrecompileId.ofAddress, h]) rfl hgas
    · exact dispatchAgrees_of_outside (.inr hge)

end dispatch

/-- A message to the address of the identity precompile with enough gas. -/
def identityMessage : Message := { gas := 1000, codeAddress := 4, inputData := [1, 2, 3] }

/-- The condition of `dispatchAgrees_iff` fails at the identity precompile. -/
theorem dispatchAgrees_iff_identityMessage :
    0 ≤ identityMessage.gas ∧ (@DispatchAgrees ⟨fun _ => 0⟩ (fun _ => ∅) identityMessage ↔
      ServedById identityMessage.codeAddress) :=
  ⟨by decide, @dispatchAgrees_iff ⟨fun _ => 0⟩ (fun _ => ∅) identityMessage (by decide)⟩

/-- A message to the identity precompile is charged by the formula of another one. -/
theorem not_dispatchAgrees_identityMessage :
    ¬ @DispatchAgrees ⟨fun _ => 0⟩ (fun _ => ∅) identityMessage := by
  intro hagrees
  have h := @DispatchAgrees.identity ⟨fun _ => 0⟩ _ _ hagrees rfl (by decide) (by decide)
    fun _ => rfl
  revert h
  decide

end Precompiles

end Zvmone
