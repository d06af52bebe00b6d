import Diglot.Lowering.Associative
import Diglot.Lowering.Imperative

/-! # Compiling

The two ways to add code to a session.

- `Session.compile` compiles a unit into a new block. The first unit goes to the first block, which
  may exist already because of imported symbols; later units become its children.
- `Session.watchExpression` compiles an expression that is evaluated in the scope of an existing
  block. Its code goes to the watch stream, and the program stays as it is.
-/

set_option autoImplicit false

namespace Diglot

namespace Lowering

/-- Lowers a statement of the current dialect whose parts are lowered by `statement`. -/
def lowerStatement (statement : LowerStatement) (node : Node) : Lower Exits := do
  match (← read).dialect with
  | .associative => plain (associativeStatement statement node)
  | .imperative => imperativeStatement statement node

/-- Lowers a statement of at most the given depth. -/
def statementWithin : Nat → Node → Lower Exits
  | 0, _ => defect .depthExceeded
  | depth + 1, node => lowerStatement (statementWithin depth) node

/-- Lowers a statement and tells the jumps that leave it. -/
def statement (node : Node) : Lower Exits := statementWithin node.weight node

/-- Lowers a watch expression: its value is popped into a made-up variable. -/
def lowerWatch (node : Node) : Lower Nat := do
  let entry ← pc
  let _ ← expression node
  let name ← nextTemporary "%watch_"
  let symbol ← getSymbol (← allocate { name, type := .var })
  let _ ← emitPopw symbol
  let _ ← emit (.bare .retcn) .nil
  return entry

end Lowering

open Lowering

/-- Why a call did not compile. -/
inductive CompileError where
  | halt (diagnostic : Diagnostic)
  | unknownBlock (id : Nat)
  | defect (defect : Defect)
  deriving DecidableEq, Inhabited

namespace CompileError

/-- Why lowering stopped. -/
def ofStop : Stop → CompileError
  | .halt d => .halt d
  | .defect d => .defect d

/-- The error as it is reported. -/
def message : CompileError → String
  | halt d => "Compilation halted. " ++ d.text
  | unknownBlock id => "Code block " ++ toString id ++ " does not exist."
  | defect d => d.message

/-- The issue that compilation halted at. -/
def issue? : CompileError → Option Issue
  | halt d => some d.issue
  | _ => none

end CompileError

namespace Session

/-- Runs a step of lowering on the session. -/
def lower {α : Type} (s : Session) (frame : Frame) (m : Lower α) :
    Except CompileError α × Session :=
  match (m.run frame).run { session := s } with
  | .ok a state => (.ok a, state.session)
  | .error stop state => (.error (.ofStop stop), state.session)

/-- The block of the next unit, which is added unless it is the first one and exists already. -/
def openUnit (s : Session) (dialect : Dialect) : Nat × Session :=
  if s.counters.units = 0 then
    if s.blocks.isEmpty then (0, s.addBlock .global dialect none)
    else (0, s.modifyBlock 0 fun b => { b with dialect })
  else (s.blocks.size, s.addBlock .global dialect (some 0))

/-- Compiles a unit and tells its block. -/
def compile (s : Session) (unit : List Node) (dialect : Dialect) :
    Except CompileError Nat × Session :=
  let (block, s) := { s with isWatching := false }.openUnit dialect
  let units := s.counters.units + 1
  let s := { s with counters := { s.counters with units } }.note .debug .code
    ("unit #" ++ toString units ++ " in " ++ dialect.name ++ " block " ++ toString block)
  s.lower { block, scope := .global, dialect } do
    lowerUnit statement block .global dialect unit []
    return block

/-- The scope of the code of a block. -/
def scopeOf (s : Session) (block : Block) : Scope :=
  match block.procedure with
  | none => .global
  | some r =>
    { classScope := r.classScope
      procedure := some r
      body := some (((s.procedure? r).bind Procedure.block).getD block.id) }

/-- Compiles an expression in the scope of a block and tells where its code begins. -/
def watchExpression (s : Session) (block : Nat) (node : Node) :
    Except CompileError Nat × Session :=
  match s.block? block with
  | none => (.error (.unknownBlock block), s)
  | some b =>
    let (result, s') := { s with isWatching := true }.lower
      { block, scope := s.scopeOf b, dialect := b.dialect } (lowerWatch node)
    (result, { s' with isWatching := false })

end Session

end Diglot

/-! ## Executables

What a finished session leaves behind: the program without the counters and switches that only
compilation needs.
-/

namespace Diglot

/-- A compiled program. -/
structure Executable where
  file : Option String
  blocks : Array Block
  classes : ClassTable
  procedures : ProcedureTable
  lateVariables : Array LateVariable
  lateFunctions : Array LateFunction
  debugMap : DebugMap
  diagnostics : Diagnostics
  /-- The code of all watch expressions. -/
  watch : Array Instruction
  deriving Inhabited

/-- Closes a session. -/
def Session.finish (s : Session) : Executable :=
  { file := s.file
    blocks := s.blocks
    classes := s.classes
    procedures := s.procedures
    lateVariables := s.lateVariables
    lateFunctions := s.lateFunctions
    debugMap := s.debugMap
    diagnostics := s.diagnostics
    watch := s.watch }

namespace Executable

/-- The block of an index. -/
def block? (e : Executable) (id : Nat) : Option Block := e.blocks[id]?

/-- The dependency nodes of all blocks, block by block. -/
def nodes (e : Executable) : List GraphNode := e.blocks.toList.flatMap fun b => b.graph.toList

/-- The first dependency node of an identity. -/
def node? (e : Executable) (uid : Nat) : Option GraphNode := e.nodes.find? fun n => n.uid == uid

end Executable

end Diglot
