import Zvmone.Vm.Tracing

/-! # What tracers write

The tracers keep stacks of contexts. What they write about a trace is said here by recursion on the
trace (`renderer`): about an instruction and about the end of an execution a tracer writes what follows
from the start of the execution and from the instructions of this execution before. The chain of
tracers follows it (`follows_tracers`), so that tracers are never confused by nested executions. -/

namespace Zvmone

open Forest

section

variable [TracerText]

/-- How often the instructions had the opcode, as a `uint32_t`. -/
def countOpcodes (code : Bytes) (seen : List Baseline.Frame) (opcode : UInt8) : BitVec 32 :=
  BitVec.ofNat 32 (seen.countP fun f => code[f.offset]? = some opcode)

/-- The context of an execution in which instructions have been seen. -/
def HistogramTracer.contextOf (x : (Message × Bytes) × List Baseline.Frame) :
    HistogramTracer.Context where
  depth := x.1.1.depth
  code := x.1.2
  counts := countOpcodes x.1.2 x.2

/-- The context of an execution. -/
def InstructionTracer.contextOf (x : (Message × Bytes) × List Baseline.Frame) :
    InstructionTracer.Context where
  code := x.1.2
  startGas := x.1.1.gas

/-- The tracer inside further executions. -/
def Tracer.inside (stack : List ((Message × Bytes) × List Baseline.Frame)) : Tracer → Tracer
  | .histogram contexts => .histogram (stack.map HistogramTracer.contextOf ++ contexts)
  | .instruction contexts => .instruction (stack.map InstructionTracer.contextOf ++ contexts)

omit [TracerText] in
/-- Outside of all executions. -/
@[simp] theorem Tracer.inside_nil (tracer : Tracer) : tracer.inside [] = tracer := by
  cases tracer <;> rfl

/-- What a tracer writes. -/
def Tracer.renderer : Tracer → Renderer (Message × Bytes) Baseline.Frame CallResult OStream
  | .histogram _ =>
    { opens := fun _ out => out
      happens := fun _ _ _ out => out
      closes := fun start seen _ out =>
        HistogramTracer.report start.1.depth (countOpcodes start.2 seen) out }
  | .instruction _ =>
    { opens := fun start out => InstructionTracer.putStart start.1 out
      happens := fun start _ f out =>
        InstructionTracer.putInstruction ((start.2[f.offset]?).getD 0) f out
      closes := fun start _ result out => InstructionTracer.putEnd start.1.gas result out }

/-- What a chain of tracers writes: each tracer before the next one. -/
def chainRenderer (chain : List Tracer) :
    Renderer (Message × Bytes) Baseline.Frame CallResult OStream where
  opens start out := chain.foldl (fun out tracer => tracer.renderer.opens start out) out
  happens start seen f out :=
    chain.foldl (fun out tracer => tracer.renderer.happens start seen f out) out
  closes start seen result out :=
    chain.foldl (fun out tracer => tracer.renderer.closes start seen result out) out

/-- A tracer that takes an event, for every tracer of a chain. -/
theorem notifyAll_of_on {event : Event} {g : Tracer → Tracer}
    {write : Tracer → OStream → OStream} {f : Tracer → Tracer}
    (h : ∀ tracer out, (f tracer).on event out = .ok (g tracer, write tracer out))
    (chain : List Tracer) (out : OStream) : notifyAll event (chain.map f) out =
      .ok (chain.map g, chain.foldl (fun out tracer => write tracer out) out) := by
  induction chain generalizing out with
  | nil => rfl
  | cons tracer chain ih =>
    rw [List.map_cons, notifyAll, h]
    show (notifyAll event (chain.map f) (write tracer out) >>= fun r =>
      pure (g tracer :: r.1, r.2)) = _
    rw [ih]
    rfl

/-- The histogram counts the opcode of an instruction. -/
theorem HistogramTracer.on_instruction {ctx : HistogramTracer.Context} {f : Baseline.Frame}
    {opcode : UInt8} (h : ctx.code[f.offset]? = some opcode)
    (contexts : List HistogramTracer.Context) (out : OStream) :
    HistogramTracer.on (.instructionStart f) (ctx :: contexts) out =
      .ok (ctx.count opcode :: contexts, out) := by
  simp only [HistogramTracer.on, h]

/-- The instruction tracer writes a line for an instruction. -/
theorem InstructionTracer.on_instruction {ctx : InstructionTracer.Context} {f : Baseline.Frame}
    {opcode : UInt8} (h : ctx.code[f.offset]? = some opcode)
    (contexts : List InstructionTracer.Context) (out : OStream) :
    InstructionTracer.on (.instructionStart f) (ctx :: contexts) out =
      .ok (ctx :: contexts, InstructionTracer.putInstruction opcode f out) := by
  simp only [InstructionTracer.on, h]

omit [TracerText] in
/-- A context that has counted one instruction more. -/
theorem contextOf_count {start : Message × Bytes} {seen : List Baseline.Frame} {f : Baseline.Frame}
    {opcode : UInt8} (h : start.2[f.offset]? = some opcode) :
    (HistogramTracer.contextOf (start, seen)).count opcode =
      HistogramTracer.contextOf (start, seen ++ [f]) := by
  have hcounts : (fun i => if i = opcode then countOpcodes start.2 seen i + 1
      else countOpcodes start.2 seen i) = countOpcodes start.2 (seen ++ [f]) := by
    funext i
    unfold countOpcodes
    rw [List.countP_append, List.countP_singleton, h]
    by_cases hi : i = opcode
    · simp [hi, BitVec.ofNat_add]
    · simp [hi, Ne.symm hi]
  unfold HistogramTracer.contextOf HistogramTracer.Context.count
  simp only [hcounts]

/-- The chain of tracers, with its stacks of contexts, writes what the renderer says. -/
theorem follows_tracers (chain : List Tracer) :
    Follows tracers (fun stack out => (chain.map (·.inside stack), out)) (chainRenderer chain)
      fun start f => f.offset < start.2.length where
  opens stack start out := by
    refine notifyAll_of_on (fun tracer out => ?_) chain out
    cases tracer <;> rfl
  happens stack start seen f out hoffset := by
    -- Each tracer of the chain reads the opcode at the offset, which has to be inside the code.
    have hopcode : start.2[f.offset]? = some start.2[f.offset] := List.getElem?_eq_getElem hoffset
    refine notifyAll_of_on (fun tracer out => ?_) chain out
    cases tracer with
    | histogram contexts =>
      show (HistogramTracer.on (.instructionStart f) (HistogramTracer.contextOf (start, seen) ::
        (stack.map HistogramTracer.contextOf ++ contexts)) out).map _ = _
      rw [HistogramTracer.on_instruction hopcode, contextOf_count hopcode]
      rfl
    | instruction contexts =>
      show (InstructionTracer.on (.instructionStart f) (InstructionTracer.contextOf (start, seen) ::
        (stack.map InstructionTracer.contextOf ++ contexts)) out).map _ = _
      rw [InstructionTracer.on_instruction hopcode]
      simp only [Tracer.renderer, hopcode]
      rfl
  closes stack start seen result out := by
    refine notifyAll_of_on (fun tracer out => ?_) chain out
    cases tracer <;> rfl

/-! ### The text of a histogram -/

namespace OStream

end OStream

namespace HistogramTracer

end HistogramTracer

end

end Zvmone
