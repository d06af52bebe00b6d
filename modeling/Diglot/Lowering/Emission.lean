import Diglot.Lowering.Monad

/-! # Emitting instructions

Instructions go to the end of the current block, or of the watch code while a watch expression is
lowered. Each emitter returns the place of its instruction.

An instruction is *stepping* if a debugger may stop at it: it then carries a debug record, provided
that the options ask for one and its span points somewhere. The other instructions are *silent*.
Both kinds enter the debug map of the session.
-/

set_option autoImplicit false

namespace Diglot

/-- Puts an instruction at the end of a block or, while watching, of the watch code. -/
def Session.emit (s : Session) (block : Nat) (i : Instruction) (span : Span) : Session :=
  if s.isWatching then { s with watch := s.watch.push i }
  else
    let pc := ((s.block? block).map fun b => b.code.size).getD 0
    { s with debugMap := s.debugMap.record block pc span }.modifyBlock block fun b =>
      { b with code := b.code.push i, entry := some (b.entry.getD b.code.size) }

namespace Lowering

/-- The place of the next instruction. -/
def pc : Lower Nat := do
  let s ← getSession
  if s.isWatching then return s.watch.size
  return (← getBlock (← read).block).code.size

/-- How the log shows the place of an instruction. -/
def place (isWatching : Bool) (frame : Frame) (pc : Nat) : String :=
  if isWatching then "[w." ++ toString pc ++ "]"
  else
    "[" ++ frame.dialect.letter.toString ++ "." ++ toString frame.block ++ "." ++
      toString pc ++ "]"

/-- Emits an instruction with the given debug record. -/
def emitWith (i : Instruction) (span : Span) (debug : Option DebugRecord) : Lower Nat := do
  let frame ← read
  let s ← getSession
  let pc ← pc
  let i := { i with debug }
  if s.options.dumpByteCode then
    note .debug .code (place s.isWatching frame pc ++ " " ++ i.text)
  modifySession fun s => s.emit frame.block i span
  return pc

/-- Emits an instruction at which no debugger stops. -/
def emitSilent (i : Instruction) (span : Span) : Lower Nat := emitWith i span none

/-- The debug record of an instruction at `pc` that continues at the given steps; without any, at
the next instruction. -/
def debugRecord? (o : Options) (span : Span) (steps : List (Option Nat)) (pc : Nat) :
    Option DebugRecord :=
  if o.debugRecords && span.isValid then
    some ⟨span, if steps.isEmpty then [some (pc + 1)] else steps⟩
  else none

/-- Emits an instruction at which a debugger may stop. -/
def emitStepping (i : Instruction) (span : Span) (steps : List (Option Nat)) : Lower Nat := do
  let pc ← pc
  emitWith i span (debugRecord? (← getSession).options span steps pc)

/-- Emits an instruction that continues at the next one and at which a debugger may stop. -/
def emit (i : Instruction) (span : Span) : Lower Nat := emitStepping i span []

/-- The class in whose scope the code runs, as an operand. -/
def classOperand : Lower Operand := do return .cls (← classScope)

/-- The current block as an operand. -/
def blockOperand : Lower Operand := do return .block (← read).block

/-! ## Pushing and popping -/

/-- Pushes an operand behind `dims` subscripts. -/
def emitPush (operand : Operand) (dims : Nat) (span : Span) : Lower Nat := do
  emit (.ternary .push operand (← classOperand) (.arrayDim dims)) span

/-- Pushes a segment of a chain. -/
def emitPushm (operand : Operand) (cls : Option Nat) (span : Span) : Lower Nat := do
  emit (.ternary .pushm operand (.cls cls) (← blockOperand)) span

/-- Replaces the segments of a chain by its value. The count is marked if the chain begins with a
computed value. -/
def emitPushlist (depth : Nat) (afterCall : Bool) (span : Span) : Lower Nat := do
  let count := if afterCall then Operand.dynamic depth else .int (Operand.clamp depth)
  emitSilent (.ternary .pushlist count (← classOperand) (← blockOperand)) span

/-- Applies subscripts or guides to the value below them. -/
def emitPushIndex (operand : Operand) : Lower Nat := emitSilent (.unary .pushindex operand) .nil

/-- Tells how many subscripts of the next segment have been pushed. -/
def emitPushDims (dims : Nat) : Lower Nat := do
  emitSilent (.binary .push (.arrayDim dims) (← classOperand)) .nil

/-- Pushes a type. -/
def emitPushType (type : Ty) : Lower Nat := do
  emitSilent (.binary .push (.staticType type) (← classOperand)) .nil

/-- Pushes what a store has to know: the block of the variable, its subscripts and its type. -/
def emitPushVarData (block dims : Nat) (type : Ty) : Lower Nat := do
  let cls ← classOperand
  let _ ← emitSilent (.binary .push (.block block) cls) .nil
  let _ ← emitSilent (.binary .push (.arrayDim dims) cls) .nil
  emitPushType type

/-- Pushes the null value. -/
def emitPushNull (span : Span) : Lower Nat := emitPush .null 0 span

/-- Pushes the current object. -/
def emitPushThis (span : Span) : Lower Nat := emitPush .this 0 span

/-- Pops into a register. -/
def emitPop (operand : Operand) (cls : Option Nat) (span : Span) : Lower Nat :=
  emit (.binary .pop operand (.cls cls)) span

/-- Pops into a variable. A debugger stops at a made-up variable only if asked to. -/
def emitPopSymbol (symbol : Symbol) (dims : Nat) (span : Span) : Lower Nat := do
  let i := Instruction.ternary .pop (.ofSymbol symbol) (.cls symbol.classScope) (.arrayDim dims)
  if symbol.isTemporary && !(← getSession).options.emitPopForTempBreakpoint then emitSilent i span
  else emit i span

/-- Stores the value on top into a variable. -/
def emitStore (symbol : Symbol) (dims : Nat) (span : Span) : Lower Nat := do
  let _ ← emitPushVarData symbol.block dims symbol.type
  emitPopSymbol symbol dims span

/-- Pops the value of a watch expression. -/
def emitPopw (symbol : Symbol) : Lower Nat :=
  emitSilent (.binary .popw (.ofSymbol symbol) (.cls symbol.classScope)) .nil

/-- Stores into the member that the segments of a chain lead to. -/
def emitPoplist (depth : Nat) (start : Option Nat) (span : Span) : Lower Nat := do
  let start : Int :=
    match start with
    | some c => if (c : Int) ≤ Numeral.maxInt then c else -1
    | none => -1
  emit (.ternary .poplist (.int (Operand.clamp depth)) (.int start) (← blockOperand)) span

/-! ## Values -/

/-- Makes an array or a string of the `count` values on top. -/
def emitAlloca (count : Nat) (isString : Bool) : Lower Nat :=
  let target := if isString then Operand.stringPointer 0 else .arrayPointer 0
  emitSilent (.binary .alloca (.int (Operand.clamp count)) target) .nil

/-- Makes the box of a variable on the heap, after moving its size into a register. -/
def emitHeapBox (symbol : Symbol) : Lower Unit := do
  match symbol.heapIndex with
  | none => return
  | some box =>
    let size := Operand.int (Operand.clamp symbol.size)
    let _ ← emitSilent (.binary .mov (.register .dx) size) .nil
    let _ ← emitSilent (.unary .alloc (.pointer box)) .nil

/-- Pushes the values of guides, and how many there are. -/
def emitGuides (guides : List Guide) : Lower Unit := do
  guides.forM fun g => do
    let _ ← emitPush (.int g.value) 0 .nil
  let _ ← emitPushIndex (.guideCount guides.length)

/-! ## Control -/

/-- Runs a language block. -/
def emitBounce (block entry : Nat) (span : Span) : Lower Nat :=
  emit (.binary .bounce (.block block) (.int (Operand.clamp entry))) span

/-- Ends a statement of an associative block. -/
def emitDepx : Lower Nat := emitSilent (.bare .depx) .nil

/-- Calls a procedure with `depth` segments of a chain before it. -/
def emitCallTo (opcode : OpCode) (target : ProcRef) (depth : Nat) (span : Span) : Lower Nat :=
  emit (.ternary opcode (.function (some target.index)) (.cls target.classScope)
    (.int (Operand.clamp depth))) span

/-- Calls a late-bound procedure. -/
def emitLateCall (index depth : Nat) (span : Span) : Lower Nat := do
  emit (.ternary .callr (.dynamic index) (← classOperand) (.int (Operand.clamp depth))) span

/-- Jumps to a place, or to one that is not known yet. -/
def emitJmp (target : Option Nat) (span : Span) : Lower Nat :=
  emitStepping (.unary .jmp (.label target)) span [target]

/-- Goes to the first place if the condition holds and to one that is not known yet otherwise. -/
def emitCjmp (condition : Operand) (holds : Nat) (span : Span) : Lower Nat := do
  let i := Instruction.ternary .cjmp condition (.label (some holds)) (.label none)
  if (← getSession).options.emitInlineConditionalBreakpoint then emitSilent i span
  else emitStepping i span [some holds, none]

/-- Goes to a place that is not known yet if the condition fails. -/
def emitJz (condition : Operand) (span : Span) : Lower Nat :=
  emitStepping (.binary .jz condition (.label none)) span [none]

/-- Leaves the procedure from its body, or the block from anywhere else. -/
def emitLeave : Lower Nat := do
  let frame ← read
  emit (.bare (if frame.scope.isBody frame.block then .ret else .retb)) .nil

/-- Takes the value on top as the result and leaves. -/
def emitResult (span : Span) : Lower Nat := do
  let _ ← emitPop (.register .rx) (← classScope) span
  emitLeave

end Lowering

end Diglot

/-! ## Patching jumps

A jump forward is emitted before its target is known. `patch` fills the target in, once and only
into a jump whose target is still pending, and completes its debug record.
-/

namespace Diglot

/-- Replaces the first step that is not known yet. -/
def DebugRecord.resolve (target : Nat) (d : DebugRecord) : DebugRecord :=
  let rec go : List (Option Nat) → List (Option Nat)
    | [] => []
    | none :: rest => some target :: rest
    | some step :: rest => some step :: go rest
  { d with nextSteps := go d.nextSteps }

/-- The jump with its pending target filled in. -/
def Instruction.patch (i : Instruction) (target : Nat) : Except Lowering.Defect Instruction :=
  if !i.opcode.isJump then .error (.patchNoJump i.opcode)
  else
    match i.jumpTarget? with
    | some (.label none) =>
      .ok { i.retarget (.label (some target)) with debug := i.debug.map (DebugRecord.resolve target) }
    | some (.label (some old)) => .error (.patchTwice i.opcode old)
    | _ => .error (.patchNoLabel i.opcode)

namespace Lowering

/-- Fills the target into the jump at a place of the code that is being emitted. -/
def patch (pending target : Nat) : Lower Unit := do
  let s ← getSession
  let frame ← read
  let code ← if s.isWatching then pure s.watch else do pure (← getBlock frame.block).code
  match code[pending]? with
  | none => defect (.patchOutside pending frame.block)
  | some i =>
    match i.patch target with
    | .error d => defect d
    | .ok i =>
      if s.isWatching then modifySession fun s => { s with watch := s.watch.setIfInBounds pending i }
      else
        modifyBlock frame.block fun b => { b with code := b.code.setIfInBounds pending i }

/-- Fills one target into several jumps. -/
def patchAll (pending : List Nat) (target : Nat) : Lower Unit :=
  pending.forM fun p => patch p target

end Lowering

end Diglot
