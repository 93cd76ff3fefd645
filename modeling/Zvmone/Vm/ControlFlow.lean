import Mathlib.Logic.Relation
import Zvmone.Vm.BaselineRuns

/-! # Control flow stays inside the code

The positions of the instructions of a code are those reached from 0 by skipping push data
(`IsStart`). The jump destination map marks exactly the `JUMPDEST`s among them
(`analyzeJumpdests_iff`), so the loop only visits them and the padding (`Passes.inCode`), and reads
only bytes of the padded code (`codeReads_lt`). -/

namespace Zvmone

namespace Baseline

open Interaction Instr

/-! ### Instruction positions -/

/-- The size of the push data after an opcode byte. -/
def immediateSize (byte : UInt8) : Nat :=
  (Opcode.ofByte byte).elim 0 fun op => (traits op).immediateSize

/-- The instruction at `i` is followed by the one at `j`. -/
def FollowedBy (code : Bytes) (i j : Nat) : Prop :=
  ∃ byte, code[i]? = some byte ∧ j = i + 1 + immediateSize byte

/-- The positions reached from 0 by linear decoding. -/
def IsStart (code : Bytes) : Nat → Prop := Relation.ReflTransGen (FollowedBy code) 0

/-- The valid jump destinations of a code. -/
def IsJumpdest (code : Bytes) (i : Nat) : Prop := IsStart code i ∧ code[i]? = some 0x5b

/-- The opcode bytes with push data. -/
theorem ofByte_push {byte : UInt8} (h : 0x60 ≤ byte.toNat ∧ byte.toNat < 0x80) :
    ∃ k : Fin 32, Opcode.ofByte byte = some (.push k) ∧ k.val = byte.toNat - 0x60 := by
  refine ⟨⟨byte.toNat - 0x60, by omega⟩, ?_, rfl⟩
  unfold Opcode.ofByte
  exact dif_pos h

/-- The opcodes from `0x60` to `0x7f` have data. -/
theorem immediateSize_push {byte : UInt8} (h : 0x60 ≤ byte.toNat ∧ byte.toNat < 0x80) :
    immediateSize byte = byte.toNat - 0x5f := by
  obtain ⟨k, hk, hval⟩ := ofByte_push h
  rw [immediateSize, hk, Option.elim_some]
  show k.val + 1 = _
  omega

/-- All others have none. -/
theorem immediateSize_of_not_push {byte : UInt8} (h : ¬ (0x60 ≤ byte.toNat ∧ byte.toNat < 0x80)) :
    immediateSize byte = 0 := by
  have htable : ∀ n < 256, ¬ (0x60 ≤ n ∧ n < 0x80) → immediateSize (UInt8.ofNat n) = 0 := by
    decide +kernel
  simpa using htable byte.toNat byte.toNat_lt h

/-- As a signed byte, exactly the opcodes of PUSH instructions are at least `OP_PUSH1`. -/
theorem toInt_ge_iff (byte : UInt8) :
    byte.toBitVec.toInt ≥ 0x60 ↔ 0x60 ≤ byte.toNat ∧ byte.toNat < 0x80 := by
  have hlt := byte.toNat_lt
  rw [BitVec.toInt_eq_toNat_cond, UInt8.toNat_toBitVec]
  split <;> omega

/-- At most 32 bytes of data follow an opcode. -/
theorem immediateSize_le (byte : UInt8) : immediateSize byte ≤ 32 := by
  by_cases h : 0x60 ≤ byte.toNat ∧ byte.toNat < 0x80
  · rw [immediateSize_push h]
    omega
  · rw [immediateSize_of_not_push h]
    omega

/-- Linear decoding from `i` on finds a `JUMPDEST` at `j`. -/
def FindsJumpdest (code : Bytes) (i j : Nat) : Prop :=
  Relation.ReflTransGen (FollowedBy code) i j ∧ code[j]? = some 0x5b

/-- Nothing follows the end of the code. -/
theorem not_findsJumpdest_of_none {code : Bytes} {i : Nat} (hi : code[i]? = none) (j : Nat) :
    ¬ FindsJumpdest code i j := by
  rintro ⟨hreach, hj⟩
  rcases Relation.ReflTransGen.cases_head hreach with rfl | ⟨k, ⟨byte, hbyte, _⟩, _⟩
  · rw [hi] at hj
    cases hj
  · rw [hi] at hbyte
    cases hbyte

/-- From an instruction, everything but the instruction itself is found from the next one. -/
theorem findsJumpdest_iff {code : Bytes} {i k : Nat} {byte : UInt8} (hbyte : code[i]? = some byte)
    (hk : k = i + 1 + immediateSize byte) (j : Nat) :
    FindsJumpdest code i j ↔ (j = i ∧ byte = 0x5b) ∨ FindsJumpdest code k j := by
  constructor
  · rintro ⟨hreach, hj⟩
    rcases Relation.ReflTransGen.cases_head hreach with rfl | ⟨k', ⟨byte', hbyte', rfl⟩, hreach'⟩
    · rw [hbyte, Option.some.injEq] at hj
      exact .inl ⟨rfl, hj⟩
    · rw [hbyte, Option.some.injEq] at hbyte'
      subst hbyte' hk
      exact .inr ⟨hreach', hj⟩
  · rintro (⟨rfl, rfl⟩ | ⟨hreach, hj⟩)
    · exact ⟨.refl, hbyte⟩
    · exact ⟨.head ⟨byte, hbyte, hk⟩ hreach, hj⟩

/-! ### The jump destination map -/

/-- The loop marks the jump destinations from its position on. -/
theorem analyzeJumpdestsLoop_iff {code : Bytes} {n i : Nat} {map : List Bool}
    (hn : code.length ≤ i + n) (hmap : map.length = code.length) (j : Nat) :
    (analyzeJumpdestsLoop code n i map)[j]? = some true ↔
      map[j]? = some true ∨ FindsJumpdest code i j := by
  induction n generalizing i map with
  | zero =>
    have hi : code[i]? = none := List.getElem?_eq_none_iff.mpr (by omega)
    simp [analyzeJumpdestsLoop, not_findsJumpdest_of_none hi]
  | succ n ih =>
    unfold analyzeJumpdestsLoop
    split
    next hi => simp [not_findsJumpdest_of_none hi]
    next byte hi =>
      -- The signed comparison of the source singles out the PUSHes, whose data is skipped.
      by_cases hpush : byte.toBitVec.toInt ≥ 0x60
      · have hrange := (toInt_ge_iff byte).mp hpush
        have hne : byte ≠ 0x5b := by
          rintro rfl
          exact absurd hrange.1 (by decide)
        have hnext : FindsJumpdest code i j ↔ _ ∨
            FindsJumpdest code (i + (byte.toNat - 0x5f) + 1) j :=
          findsJumpdest_iff hi (by rw [immediateSize_push hrange]; omega) j
        rw [if_pos hpush]
        refine (ih (by omega) hmap).trans ?_
        rw [hnext]
        simp [hne]
      · have hsize := immediateSize_of_not_push (mt (toInt_ge_iff byte).mpr hpush)
        have hnext : FindsJumpdest code i j ↔ _ ∨ FindsJumpdest code (i + 1) j :=
          findsJumpdest_iff hi (by rw [hsize]) j
        rw [if_neg hpush]
        have hilt : i < code.length := (List.getElem?_eq_some_iff.mp hi).1
        -- Any other byte is an instruction of its own, marked if it is `JUMPDEST`.
        by_cases hdest : byte = 0x5b
        · rw [if_pos hdest]
          refine (ih (by omega) (by rw [List.length_set, hmap])).trans ?_
          rw [hnext, List.getElem?_set, hmap]
          by_cases hij : i = j
          · subst hij
            simp [hilt, hdest]
          · have hji : j ≠ i := fun h => hij h.symm
            simp [hij, hji]
        · rw [if_neg hdest]
          refine (ih (by omega) hmap).trans ?_
          rw [hnext]
          simp [hdest]

/-- The jump destination map marks exactly the `JUMPDEST` instructions. -/
theorem analyzeJumpdests_iff (code : Bytes) (i : Nat) :
    (analyzeJumpdests code)[i]? = some true ↔ IsJumpdest code i := by
  rw [analyzeJumpdests, analyzeJumpdestsLoop_iff (by omega) List.length_replicate]
  have hfalse : (List.replicate code.length false)[i]? ≠ some true := by
    rw [List.getElem?_replicate]
    split <;> simp
  simp [hfalse, IsJumpdest, IsStart, FindsJumpdest]

/-- A jump to a jump destination of the code. -/
theorem jumpImpl_of_isJumpdest {code : Bytes} {dst : Word} (h : IsJumpdest code dst.toNat)
    (state : ExecutionState) : jumpImpl (analyze code) state dst = (some dst.toNat, state) := by
  have hmap : (analyzeJumpdests code)[dst.toNat]? = some true := (analyzeJumpdests_iff code _).mpr h
  have hlt := (List.getElem?_eq_some_iff.mp hmap).1
  apply if_neg
  rintro (hge | hfalse)
  · exact absurd hge (not_le.mpr hlt)
  · rw [show (analyze code).jumpdestMap[dst.toNat]? = some true from hmap] at hfalse
    cases hfalse

/-- Every other jump fails. -/
theorem jumpImpl_of_not_isJumpdest {code : Bytes} {dst : Word} (h : ¬ IsJumpdest code dst.toNat)
    (state : ExecutionState) :
    jumpImpl (analyze code) state dst = (none, { state with status := .badJumpDestination }) := by
  apply if_pos
  rcases hmap : (analyzeJumpdests code)[dst.toNat]? with _ | _ | _
  · exact .inl (List.getElem?_eq_none_iff.mp hmap)
  · exact .inr hmap
  · exact absurd ((analyzeJumpdests_iff code _).mp hmap) h

/-! ### The positions of the loop -/

/-- The positions of the instructions of the code and of the padding. -/
def InCode (code : Bytes) (i : Nat) : Prop :=
  IsStart code i ∧ i < code.length ∨ code.length ≤ i ∧ i < code.length + 33

/-- The padding has 33 bytes. -/
theorem length_padCode (code : Bytes) : (padCode code).length = code.length + 33 := by
  rw [padCode, List.length_append, List.length_replicate]

/-- The padding keeps the code. -/
theorem padCode_of_lt {code : Bytes} {i : Nat} (h : i < code.length) :
    (padCode code)[i]? = code[i]? :=
  List.getElem?_append_left h

/-- The padding is filled with `STOP`. -/
theorem padCode_of_ge {code : Bytes} {i : Nat} (h : code.length ≤ i) (h' : i < code.length + 33) :
    (padCode code)[i]? = some 0 := by
  rw [padCode, List.getElem?_append_right h, List.getElem?_replicate, if_pos (by omega)]

/-- The size of the data is the one in the traits. -/
theorem immediateSize_eq {byte : UInt8} {op : Opcode} (h : Opcode.ofByte byte = some op) :
    immediateSize byte = (traits op).immediateSize := by
  rw [immediateSize, h, Option.elim_some]

/-- Only `PUSH1` to `PUSH32` have push data. -/
theorem traits_immediateSize {op : Opcode} (h : ∀ k, op ≠ .push k) :
    (traits op).immediateSize = 0 := by
  cases op with
  | push k => exact absurd rfl (h k)
  | _ => rfl

/-- The loop begins inside of the code. -/
theorem inCode_zero (code : Bytes) : InCode code 0 := by
  by_cases h : 0 < code.length
  · exact .inl ⟨.refl, h⟩
  · exact .inr ⟨by omega, by omega⟩

variable [Ethash]

/-- A position-dependent instruction is followed by the next one, or by a jump destination. -/
theorem positionImpl_position {code : Bytes} {op : Opcode} (hop : coreImpl op = .pos)
    {stack : StackTop} {state : ExecutionState} {pos next : Nat}
    (h : (positionImpl (analyze code) op stack state pos).1 = some next) :
    IsJumpdest code next ∨ next = pos + 1 + (traits op).immediateSize := by
  -- A jump is only taken to a marked position.
  have hjump : ∀ dst : Word, (jumpImpl (analyze code) state dst).1 = some next →
      IsJumpdest code next := by
    intro dst hdst
    by_cases hvalid : IsJumpdest code dst.toNat
    · rw [jumpImpl_of_isJumpdest hvalid] at hdst
      cases hdst
      exact hvalid
    · rw [jumpImpl_of_not_isJumpdest hvalid] at hdst
      cases hdst
  cases op with
  | jump => exact .inl (hjump _ h)
  | jumpi =>
    unfold positionImpl at h
    by_cases hcond : stack.pop.2.pop.1 ≠ 0
    · simp only [if_pos hcond] at h
      exact .inl (hjump _ h)
    · simp only [if_neg hcond] at h
      cases h
      exact .inr rfl
  | pc =>
    cases h
    exact .inr rfl
  | push k =>
    cases h
    refine .inr ?_
    show pos + (k.val + 1 + 1) = pos + 1 + (k.val + 1)
    omega
  | _ => cases hop

/-- An instruction with the position goes to a jump destination or to the next instruction. -/
theorem invokeCore_pos_position {code : Bytes} {op : Opcode} {f : Frame} (hop : coreImpl op = .pos) :
    (invokeCore (analyze code) op f).Returns (Next.Continues fun f' =>
      IsJumpdest code f'.codeIt ∨ f'.codeIt = f.codeIt + 1 + (traits op).immediateSize) := by
  rw [invokeCore_pos hop]
  rcases hnext : positionImpl (analyze code) op f.stackTop f.state f.codeIt
    with ⟨_ | next, stack, state⟩
  · trivial
  · exact positionImpl_position hop (congrArg Prod.fst hnext)

/-- An instruction other than `STOP` is followed by the next one, or by a jump destination. -/
theorem step_position (code : Bytes) (f : Frame) :
    (step (analyze code) f).Returns (Next.Continues fun f' =>
      ∃ byte, (padCode code)[f.codeIt]? = some byte ∧ byte ≠ 0 ∧
        (IsJumpdest code f'.codeIt ∨ f'.codeIt = f.codeIt + 1 + immediateSize byte)) := by
  refine step_returns ?_ fun _ _ _ => trivial
  intro byte op gas hbyte hop _
  -- Instructions that move the position themselves: a push, a jump or `pc`.
  by_cases hpos : coreImpl op = .pos
  · refine (invokeCore_pos_position hpos).imp fun next h => ?_
    cases next with
    | done => trivial
    | cont f' =>
      refine ⟨byte, hbyte, ?_, by rwa [immediateSize_eq hop]⟩
      rintro rfl
      cases hop
      cases hpos
  -- The others go on behind their single byte.
  · refine (invokeCore_returns hpos).imp fun next h => ?_
    cases next with
    | done => trivial
    | cont f' =>
      obtain ⟨hcodeIt, hterm⟩ := h
      refine ⟨byte, hbyte, ?_, .inr ?_⟩
      · rintro rfl
        cases hop
        exact hterm _ rfl
      · rw [hcodeIt, immediateSize_eq hop, traits_immediateSize]
        rintro k rfl
        exact hpos rfl

/-- Every step keeps the position at an instruction of the code or in the padding. -/
theorem step_inCode {code : Bytes} {f : Frame} (h : InCode code f.codeIt) :
    (step (analyze code) f).Returns (Next.Continues fun f' => InCode code f'.codeIt) := by
  refine (step_position code f).imp fun next hnext => ?_
  cases next with
  | done => trivial
  | cont f' =>
    obtain ⟨byte, hbyte, hne, hdest | hnext⟩ := hnext
    · exact .inl ⟨hdest.1, (List.getElem?_eq_some_iff.mp hdest.2).1⟩
    · rcases h with ⟨hstart, hlt⟩ | ⟨hge, hlt⟩
      · rw [padCode_of_lt hlt] at hbyte
        have hsize := immediateSize_le byte
        have hstart' : IsStart code f'.codeIt := hstart.tail ⟨byte, hbyte, hnext⟩
        by_cases hlt' : f'.codeIt < code.length
        · exact .inl ⟨hstart', hlt'⟩
        · exact .inr ⟨by omega, by omega⟩
      · rw [padCode_of_ge hge hlt, Option.some.injEq] at hbyte
        exact absurd hbyte.symm hne

/-- The loop only visits instructions of the code and the padding. -/
theorem Passes.inCode {σ : Type} {env : Env HostCall.Answer Fault σ} {code : Bytes} {msg : Message}
    {s s' : σ} {n : Nat} {f : Frame}
    (h : Passes env (analyze code) (.start msg code) s n f s') : InCode code f.codeIt :=
  h.invariant (P := fun f => InCode code f.codeIt) (inCode_zero code) fun _ => step_inCode

/-! ### The bytes that are read -/

/-- The number of bytes that `load_partial_push_data` loads. -/
def partialLoadSize : Nat → Nat
  | 1 => 1
  | 2 => 2
  | 3 => 4
  | 4 => 4
  | _ => 8

/-- The position and the size of every load of `push<Len>`. -/
def pushLoads (len pos : Nat) : List (Nat × Nat) :=
  (if len % 8 = 0 then [] else [(pos, partialLoadSize (len % 8))]) ++
    (List.range (len / 8)).map fun i => (pos + len % 8 + 8 * i, 8)

/-- The positions of the bytes that a step reads, as opcode or as push data. -/
inductive CodeReads (analysis : CodeAnalysis) (f : Frame) : Nat → Prop
  | opcode : CodeReads analysis f f.codeIt
  | data {byte : UInt8} {k : Fin 32} {load : Nat × Nat} {p : Nat}
      (hbyte : analysis.executableCode[f.codeIt]? = some byte)
      (hop : Opcode.ofByte byte = some (.push k))
      (hload : load ∈ pushLoads (k.val + 1) (f.codeIt + 1)) (hge : load.1 ≤ p)
      (hlt : p < load.1 + load.2) : CodeReads analysis f p

section

omit [Ethash]

/-- At most 8 bytes are loaded at once. -/
theorem partialLoadSize_le (n : Nat) : partialLoadSize n ≤ 8 := by
  unfold partialLoadSize
  split <;> decide

/-- The loads of a push end within 32 bytes. -/
theorem pushLoads_le {k : Fin 32} {pos : Nat} {load : Nat × Nat}
    (h : load ∈ pushLoads (k.val + 1) pos) : load.1 + load.2 ≤ pos + 32 := by
  have hk := k.isLt
  rcases List.mem_append.mp h with h | h
  · split at h
    · cases h
    · obtain rfl := List.mem_singleton.mp h
      have := partialLoadSize_le ((k.val + 1) % 8)
      dsimp only
      omega
  · obtain ⟨i, hi, rfl⟩ := List.mem_map.mp h
    rw [List.mem_range] at hi
    dsimp only
    omega

/-- Everything that is read at a position of the loop is in the padded code. -/
theorem CodeReads.lt {code : Bytes} {f : Frame} {p : Nat} (h : CodeReads (analyze code) f p)
    (hf : InCode code f.codeIt) : p < code.length + 33 := by
  cases h with
  | opcode =>
    rcases hf with ⟨_, hlt⟩ | ⟨_, hlt⟩
    · omega
    · exact hlt
  | @data byte k load _ hbyte hop hload hge hlt =>
    have hend := pushLoads_le hload
    rcases hf with ⟨_, hcode⟩ | ⟨hpad, hcode⟩
    · omega
    · -- The padding holds no push.
      rw [show (analyze code).executableCode[f.codeIt]? = some 0 from padCode_of_ge hpad hcode]
        at hbyte
      cases hbyte
      cases hop

/-- A load depends on the loaded bytes only. -/
theorem loadCode_congr {code code' : Bytes} {pos n : Nat}
    (h : ∀ p, pos ≤ p → p < pos + n → code[p]? = code'[p]?) :
    loadCode code pos n = loadCode code' pos n := by
  refine congrArg BigEndian.load (List.ext_getElem? fun i => ?_)
  rw [List.getElem?_take, List.getElem?_take]
  split
  next hi => rw [List.getElem?_drop, List.getElem?_drop, h (pos + i) (by omega) (by omega)]
  next => rfl

/-- A partial load depends on the loaded bytes only. -/
theorem loadPartialPushData_congr {code code' : Bytes} {len pos : Nat}
    (h : ∀ p, pos ≤ p → p < pos + partialLoadSize len → code[p]? = code'[p]?) :
    loadPartialPushData len code pos = loadPartialPushData len code' pos := by
  unfold loadPartialPushData
  split
  · exact loadCode_congr h
  · exact loadCode_congr h
  · exact congrArg (· >>> 8) (loadCode_congr h)
  · exact loadCode_congr h
  · refine congrArg (· >>> _) (loadCode_congr fun p hge hlt => h p hge ?_)
    unfold partialLoadSize
    split
    · contradiction
    · contradiction
    · contradiction
    · contradiction
    · exact hlt

/-- The data of a push depends only on the bytes it loads. -/
theorem loadPushData_congr {code code' : Bytes} {len pos : Nat}
    (h : ∀ load ∈ pushLoads len pos, ∀ p, load.1 ≤ p → p < load.1 + load.2 →
      code[p]? = code'[p]?) : loadPushData len code pos = loadPushData len code' pos := by
  unfold loadPushData
  refine congrArg Word.ofLimbs (funext fun i => ?_)
  split
  next hi =>
    rw [loadCode_congr]
    refine h (_, 8) (List.mem_append_right _ (List.mem_map.mpr ⟨len / 8 - 1 - i, ?_, rfl⟩))
    rw [List.mem_range]
    omega
  next =>
    split
    next hi =>
      rw [loadPartialPushData_congr]
      refine h (_, _) (List.mem_append_left _ ?_)
      rw [if_neg hi.2]
      exact List.mem_singleton.mpr rfl
    next => rfl

end

/-- Two analyses are told apart only by instructions that read the code. -/
theorem invokeCore_congr {analysis analysis' : CodeAnalysis} {op : Opcode} {f : Frame}
    (h : coreImpl op = .pos → positionImpl analysis op f.stackTop f.state f.codeIt
      = positionImpl analysis' op f.stackTop f.state f.codeIt) :
    invokeCore analysis op f = invokeCore analysis' op f := by
  unfold invokeCore
  rcases hop : coreImpl op with fn | fn | m | m | _
  · rfl
  · rfl
  · rfl
  · rfl
  · dsimp only
    rw [h hop]

/-- A step depends only on the bytes of the code that it reads. -/
theorem step_congr {analysis : CodeAnalysis} {f : Frame} {buffer : Bytes}
    (h : ∀ p, CodeReads analysis f p → buffer[p]? = analysis.executableCode[p]?) :
    step { analysis with executableCode := buffer } f = step analysis f := by
  unfold step
  rw [h _ .opcode]
  split
  next => rfl
  next byte hbyte =>
    split
    next op hop =>
      -- Past the opcode only a push reads the buffer.
      have hinvoke : ∀ gas, invokeCore { analysis with executableCode := buffer } op { f with gas }
          = invokeCore analysis op { f with gas } := by
        refine fun gas => invokeCore_congr fun hpos => ?_
        cases op with
        | push k =>
          have hdata : loadPushData (k.val + 1) buffer (f.codeIt + 1)
              = loadPushData (k.val + 1) analysis.executableCode (f.codeIt + 1) :=
            loadPushData_congr fun load hload p hge hlt => h p (.data hbyte hop hload hge hlt)
          simp only [positionImpl, hdata]
        | jump => rfl
        | jumpi => rfl
        | pc => rfl
        | _ => cases hpos
      unfold invoke
      simp only [hinvoke]
    next => rfl

/-! ### Jumps -/

/-- A step at an instruction whose requirements are met. -/
theorem step_of_checked {analysis : CodeAnalysis} {f : Frame} {byte : UInt8} {op : Opcode}
    {gas : Int} (hbyte : analysis.executableCode[f.codeIt]? = some byte)
    (hop : Opcode.ofByte byte = some op)
    (hcheck : checkRequirements op f.gas f.stackTop = (.success, gas)) :
    step analysis f = invokeCore analysis op { f with gas } := by
  simp only [step, hbyte, hop, invoke, hcheck]

/-- An instruction that is not paid for or does not fit ends the frame. -/
theorem step_of_unchecked {analysis : CodeAnalysis} {f : Frame} {byte : UInt8} {op : Opcode}
    {status : StatusCode} {gas : Int} (hbyte : analysis.executableCode[f.codeIt]? = some byte)
    (hop : Opcode.ofByte byte = some op)
    (hcheck : checkRequirements op f.gas f.stackTop = (status, gas)) (hfail : status.IsFailure) :
    step analysis f = .ret (.done gas { f.state with status }) := by
  simp only [step, hbyte, hop, invoke, hcheck]
  cases status with
  | success => exact absurd rfl hfail.1
  | _ => rfl

/-- The position of the loop after a jump to `dst`, or the end of the execution. -/
structure JumpsTo (code : Bytes) (dst : Nat) (gas : Int) (state : ExecutionState)
    (p : HostM Next) : Prop where
  valid : IsJumpdest code dst → ∃ stack, p = .ret (.cont ⟨dst, stack, gas, state⟩)
  invalid : ¬ IsJumpdest code dst → p = .ret (.done gas { state with status := .badJumpDestination })

/-- `JUMP` goes to its target. -/
theorem jumpsTo_jump {code : Bytes} {f : Frame} {gas : Int}
    (hop : (analyze code).executableCode[f.codeIt]? = some 0x56)
    (hcheck : checkRequirements .jump f.gas f.stackTop = (.success, gas)) :
    JumpsTo code (f.stackTop.get 0).toNat gas f.state (step (analyze code) f) := by
  rw [step_of_checked hop rfl hcheck, invokeCore_pos rfl]
  unfold positionImpl
  constructor
  · intro hvalid
    simp only [StackTop.pop, jumpImpl_of_isJumpdest hvalid]
    exact ⟨_, rfl⟩
  · intro hinvalid
    simp only [StackTop.pop, jumpImpl_of_not_isJumpdest hinvalid]
    rfl

/-- `JUMPI` goes to its target if the condition is not 0. -/
theorem jumpsTo_jumpi {code : Bytes} {f : Frame} {gas : Int}
    (hop : (analyze code).executableCode[f.codeIt]? = some 0x57)
    (hcheck : checkRequirements .jumpi f.gas f.stackTop = (.success, gas))
    (htaken : f.stackTop.pop.2.get 0 ≠ 0) :
    JumpsTo code (f.stackTop.get 0).toNat gas f.state (step (analyze code) f) := by
  rw [step_of_checked hop rfl hcheck, invokeCore_pos rfl]
  have htaken : f.stackTop.pop.2.pop.1 ≠ 0 := htaken
  unfold positionImpl
  simp only [if_pos htaken]
  constructor
  · intro hvalid
    simp only [StackTop.pop, jumpImpl_of_isJumpdest hvalid]
    exact ⟨_, rfl⟩
  · intro hinvalid
    simp only [StackTop.pop, jumpImpl_of_not_isJumpdest hinvalid]
    rfl

/-- Control flow stays inside the code: the loop visits instructions and the padding only, jumps go
to `JUMPDEST` instructions or fail, and no byte outside the padded code is read. -/
theorem control_flow_inside_code (code : Bytes) :
    (∀ (σ : Type) (env : Env HostCall.Answer Fault σ) (msg : Message) (s s' : σ) (n : Nat)
      (f : Frame), Passes env (analyze code) (.start msg code) s n f s' →
      (IsStart code f.codeIt ∧ f.codeIt < code.length ∨
        code.length ≤ f.codeIt ∧ f.codeIt < code.length + 33 ∧
          (analyze code).executableCode[f.codeIt]? = some 0) ∧
      (∀ p, CodeReads (analyze code) f p → p < code.length + 33) ∧
      ∀ buffer, (∀ p, CodeReads (analyze code) f p →
          buffer[p]? = (analyze code).executableCode[p]?) →
        step { analyze code with executableCode := buffer } f = step (analyze code) f) ∧
    (analyze code).executableCode.length = code.length + 33 ∧
    (∀ f gas, (analyze code).executableCode[f.codeIt]? = some 0x56 →
      checkRequirements .jump f.gas f.stackTop = (.success, gas) →
      JumpsTo code (f.stackTop.get 0).toNat gas f.state (step (analyze code) f)) ∧
    (∀ f gas, (analyze code).executableCode[f.codeIt]? = some 0x57 →
      checkRequirements .jumpi f.gas f.stackTop = (.success, gas) →
      f.stackTop.pop.2.get 0 ≠ 0 →
      JumpsTo code (f.stackTop.get 0).toNat gas f.state (step (analyze code) f)) := by
  refine ⟨?_, length_padCode code, fun f gas => jumpsTo_jump, fun f gas => jumpsTo_jumpi⟩
  intro σ env msg s s' n f h
  -- The position invariant of the run gives where the frame stands, and with it what it reads.
  have hcode := h.inCode
  refine ⟨?_, fun p hp => hp.lt hcode, fun buffer => step_congr⟩
  rcases hcode with hstart | ⟨hge, hlt⟩
  · exact .inl hstart
  · exact .inr ⟨hge, hlt, padCode_of_ge hge hlt⟩

end Baseline

end Zvmone
