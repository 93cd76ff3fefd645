import Mathlib.Tactic.IntervalCases
import Zvmone.State.ExpmodPrice
import Zvmone.State.PrecompileDispatch

/-! # The output buffer of precompiled contracts

Every executor writes into a buffer of 256 bytes, and only an assertion keeps the size that
`analyze` announces below that. `bufferSafe_iff` says for which messages it does: not for the
identity function on more than 256 bytes, nor for a modulus of more than 256 bytes. -/

namespace Zvmone

namespace Precompiles

/-- The size that `expmod_analyze` announces. -/
theorem expmodAnalyze_maxOutputSize (input : Bytes) : (expmodAnalyze input).maxOutputSize =
    if baseLen input < 2 ^ 64 ∧ expLen input < 2 ^ 64 ∧ modLen input < 2 ^ 64 then modLen input
    else 0 := by
  obtain ⟨hbase, hexp, hmod⟩ := load_header input
  unfold expmodAnalyze
  dsimp only at hbase hexp hmod ⊢
  split
  next hzero =>
    have hmod₀ : modLen input = 0 := by rw [← hmod, hzero.2]; rfl
    rw [hmod₀]
    split <;> rfl
  next =>
    rw [hbase, hexp, hmod]
    by_cases hfits : baseLen input < 2 ^ 64 ∧ expLen input < 2 ^ 64 ∧ modLen input < 2 ^ 64
    · have hsize : modLen input % 2 ^ 64 = modLen input := Nat.mod_eq_of_lt hfits.2.2
      rw [if_pos hfits, if_neg (by omega)]
      dsimp only
      rw [Word.toSize, hmod, hsize]
    · rw [if_neg hfits, if_pos (by omega)]

section buffer

variable [Ethash] {cache : Cache} {msg : Message} {id : Fin numPrecompiles} {analyze : AnalyzeFn}

/-- The message gets as far as the output buffer: the table has an entry for its code address, the
gas check passes, and no cached result is found. -/
structure ReachesBuffer (cache : Cache) (msg : Message) (id : Fin numPrecompiles)
    (analyze : AnalyzeFn) : Prop where
  address : msg.codeAddress.toNat = id.val
  entry : (traits id).analyze = some analyze
  gas : 0 ≤ msg.gas
  cost : 0 ≤ msg.gas - (analyze.call msg.inputData).gasCost
  uncached : cache.find id msg.inputData (msg.gas - (analyze.call msg.inputData).gasCost) = none

/-- What the assertion on the buffer promises of a message. -/
structure BufferSafe (cache : Cache) (msg : Message) (id : Fin numPrecompiles)
    (analyze : AnalyzeFn) : Prop where
  /-- The announced size fits the buffer. -/
  fits : (analyze.call msg.inputData).maxOutputSize ≤ outputBufSize
  /-- The executor writes at most the announced size. -/
  writes : ∀ execute, (traits id).execute = some execute →
    ∃ r, execute.call msg.inputData (analyze.call msg.inputData).maxOutputSize = .ok r ∧
      r.output.length ≤ (analyze.call msg.inputData).maxOutputSize
  /-- The identity function returns its whole input. -/
  identity : (traits id).execute = some .identity →
    (callPrecompile cache msg).result = .ok (some {
      statusCode := .success
      gasLeft := msg.gas - (analyze.call msg.inputData).gasCost
      outputData := msg.inputData })

/-- The announced size is larger than the buffer: identity, which the table has at position 3, on a
long input, or modular exponentiation, at position 4, with a long modulus. -/
def OverflowsBuffer (msg : Message) : Prop :=
  (msg.codeAddress = 3 ∧ 256 < msg.inputData.length) ∨
    (msg.codeAddress = 4 ∧ 256 < modLen msg.inputData ∧ baseLen msg.inputData < 2 ^ 64 ∧
      expLen msg.inputData < 2 ^ 64 ∧ modLen msg.inputData < 2 ^ 64)

omit [Ethash] in
/-- The entries of the table that the buffer may be too small for, and the others. -/
theorem entry_cases (h : (traits id).analyze = some analyze) :
    (id.val = 3 ∧ analyze = .identity ∧ (traits id).execute = some .identity) ∨
      (id.val ≠ 3 ∧ ∃ p, (traits id).execute = some (.dummy p)) ∧
        ((id.val = 4 ∧ analyze = .expmod) ∨
          (id.val ≠ 4 ∧ ∀ input, (analyze.call input).maxOutputSize ≤ 64)) := by
  obtain ⟨n, hn⟩ := id
  have hn : n < 10 := hn
  -- One case for every entry of the table.
  interval_cases n <;> cases h <;> simp [traits, AnalyzeFn.call, depositrootAnalyze,
    sha256Analyze, ecaddAnalyze, ecmulAnalyze, ecpairingAnalyze]

/-- What is announced is too much exactly for the messages that overflow the buffer. -/
theorem ReachesBuffer.fits_iff (h : ReachesBuffer cache msg id analyze) :
    (analyze.call msg.inputData).maxOutputSize ≤ outputBufSize ↔ ¬ OverflowsBuffer msg := by
  unfold OverflowsBuffer
  have haddr : ∀ n : Address, msg.codeAddress = n ↔ id.val = n.toNat := fun n => by
    rw [← BitVec.toNat_inj, h.address]
  rw [haddr, haddr]
  show _ ≤ 256 ↔ ¬ (id.val = 3 ∧ _ ∨ id.val = 4 ∧ _)
  rcases entry_cases h.entry with ⟨hid, rfl, -⟩ | ⟨⟨hid, -⟩, ⟨hid', rfl⟩ | ⟨hid', hsmall⟩⟩
  -- Identity announces the length of its input.
  · show msg.inputData.length ≤ 256 ↔ _
    omega
  -- Modular exponentiation announces the length of the modulus.
  · show (expmodAnalyze msg.inputData).maxOutputSize ≤ 256 ↔ _
    rw [expmodAnalyze_maxOutputSize]
    split <;> omega
  · have := hsmall msg.inputData
    omega

omit [Ethash] in
/-- The identity function returns its input. -/
theorem executeWith_identity [Ethash] (id : Fin numPrecompiles) (cache : Cache) (input : Bytes)
    (gasLeft : Int) :
    (executeWith .identity id cache input (AnalyzeFn.identity.call input).maxOutputSize gasLeft).1
      = .ok { statusCode := .success, gasLeft, outputData := input } := by
  have hexecute : ExecuteFn.identity.call input (AnalyzeFn.identity.call input).maxOutputSize
      = .ok ⟨.success, input⟩ := if_pos rfl
  unfold executeWith
  rw [hexecute]
  rfl

/-- The one assertion that a precompile can stop at is that on the output buffer. -/
theorem overflows_of_assertion (hgas : 0 ≤ msg.gas)
    (h : (callPrecompile cache msg).result = .error .assertion) :
    OverflowsBuffer msg ∧ ∃ id analyze, ReachesBuffer cache msg id analyze := by
  by_cases hout : msg.codeAddress = 0 ∨ msg.codeAddress.toNat ≥ numPrecompiles
  · rw [callPrecompile_of_outside hout] at h
    cases h
  obtain ⟨hzero, hlt⟩ := not_or.1 hout
  let id : Fin numPrecompiles := ⟨msg.codeAddress.toNat, not_le.1 hlt⟩
  have hpos : id.val ≠ 0 := fun h => hzero (BitVec.eq_of_toNat_eq h)
  rw [@callPrecompile_of_inside _ _ _ id rfl hpos hgas] at h
  unfold callWith at h
  cases hentry : (traits id).analyze with
  | none =>
    rw [hentry] at h
    cases h
  | some analyze =>
    rw [hentry] at h
    dsimp only at h
    split at h
    next => cases h
    next hcost =>
      split at h
      next => cases h
      next huncached =>
        have hreaches : ReachesBuffer cache msg id analyze :=
          ⟨rfl, hentry, hgas, not_lt.1 hcost, huncached⟩
        refine ⟨?_, id, analyze, hreaches⟩
        split at h
        next hlong =>
          by_contra hfits
          exact absurd (hreaches.fits_iff.2 hfits) (not_le.2 hlong)
        next =>
          -- No executor stops at an assertion: identity has the room it announced.
          rcases entry_cases hentry with ⟨-, rfl, hexecute⟩ | ⟨⟨-, p, hexecute⟩, -⟩
          · rw [hexecute] at h
            simp only [executeWith_identity] at h
            cases h
          · rw [hexecute] at h
            cases h

/-- **The output buffer is large enough unless the identity function gets more than 256 bytes, or
modular exponentiation a modulus of more than 256 bytes.** -/
theorem bufferSafe_iff (h : ReachesBuffer cache msg id analyze) :
    BufferSafe cache msg id analyze ↔ ¬ OverflowsBuffer msg := by
  rw [← h.fits_iff]
  constructor
  · exact fun hsafe => hsafe.fits
  · intro hfits
    refine ⟨hfits, ?_, ?_⟩
    · intro execute hexecute
      -- Identity writes its input, all other executors write nothing.
      rcases entry_cases h.entry with ⟨-, rfl, hidentity⟩ | ⟨⟨-, p, hdummy⟩, -⟩
      · obtain rfl : ExecuteFn.identity = execute :=
          Option.some.inj (hidentity.symm.trans hexecute)
        exact ⟨⟨.success, msg.inputData⟩, if_pos rfl, le_rfl⟩
      · obtain rfl : ExecuteFn.dummy p = execute := Option.some.inj (hdummy.symm.trans hexecute)
        exact ⟨⟨.internalError, []⟩, rfl, Nat.zero_le _⟩
    · intro hidentity
      obtain ⟨hid, rfl⟩ : id.val = 3 ∧ analyze = .identity := by
        rcases entry_cases h.entry with ⟨hid, rfl, -⟩ | ⟨⟨-, p, hdummy⟩, -⟩
        · exact ⟨hid, rfl⟩
        · cases hdummy.symm.trans hidentity
      have hpos : id.val ≠ 0 := by omega
      have hanalyze := h.entry
      have hcost : ¬ msg.gas - (AnalyzeFn.identity.call msg.inputData).gasCost < 0 := not_lt.2 h.cost
      rw [callPrecompile_of_inside h.address hpos h.gas]
      unfold callWith
      rw [hanalyze]
      simp only [if_neg hcost, h.uncached, hidentity, if_neg (not_lt.2 hfits), executeWith_identity,
        Except.map]

end buffer

/-- A message to the identity function with an input of the given length and enough gas. -/
def copyMessage (length : Nat) : Message :=
  { gas := 100, codeAddress := 3, inputData := List.replicate length 0 }

/-- Such a message gets as far as the buffer. -/
theorem reachesBuffer_copyMessage {n : Nat} (h : 15 + 3 * numWords n ≤ 100) :
    @ReachesBuffer ⟨fun _ => 0⟩ (fun _ => ∅) (copyMessage n) ⟨3, by decide⟩ .identity := by
  have hlength : (copyMessage n).inputData.length = n := List.length_replicate
  refine @ReachesBuffer.mk ⟨fun _ => 0⟩ _ _ _ _ rfl rfl (by decide : (0 : Int) ≤ 100) ?_ rfl
  show (0 : Int) ≤ 100 - (15 + 3 * numWords (copyMessage n).inputData.length)
  rw [hlength]
  omega

/-- A message of 256 bytes reaches the buffer, and fills it exactly. -/
theorem bufferSafe_iff_copyMessage :
    @ReachesBuffer ⟨fun _ => 0⟩ (fun _ => ∅) (copyMessage 256) ⟨3, by decide⟩ .identity ∧
      (@BufferSafe ⟨fun _ => 0⟩ (fun _ => ∅) (copyMessage 256) ⟨3, by decide⟩ .identity ↔
        ¬ OverflowsBuffer (copyMessage 256)) :=
  have h := @reachesBuffer_copyMessage 256 (by decide)
  ⟨h, @bufferSafe_iff ⟨fun _ => 0⟩ _ _ _ _ h⟩

/-- One byte more, and the message reaches a buffer that is too small for its answer. -/
theorem not_bufferSafe_copyMessage :
    @ReachesBuffer ⟨fun _ => 0⟩ (fun _ => ∅) (copyMessage 257) ⟨3, by decide⟩ .identity ∧
      ¬ @BufferSafe ⟨fun _ => 0⟩ (fun _ => ∅) (copyMessage 257) ⟨3, by decide⟩ .identity := by
  refine ⟨reachesBuffer_copyMessage (by decide), fun hsafe => ?_⟩
  have hfits : (copyMessage 257).inputData.length ≤ 256 :=
    @BufferSafe.fits ⟨fun _ => 0⟩ _ _ _ _ hsafe
  rw [show (copyMessage 257).inputData.length = 257 from List.length_replicate] at hfits
  exact absurd hfits (by decide)

end Precompiles

end Zvmone
