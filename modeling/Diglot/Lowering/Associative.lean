import Diglot.Lowering.Allocation
import Diglot.Lowering.Declaration
import Diglot.Lowering.Expression
import Diglot.Lowering.Store

/-! # Associative statements

Each statement of an associative block becomes a dependency node, which tells the machine when to
run it again.

With the option for it, a chain `a.b.c` that is assigned is split: its first segment is stored into
a made-up variable, from which the next one is read, and so on. The nodes of such a split are held
back until the last of them is complete.
-/

set_option autoImplicit false

/-! ## Looking ahead for forward references

A statement of an associative block may read a name that a later statement assigns. Before its value
is lowered, `probe` walks over the value and declares each such name that is not declared yet, so
that the read finds a variable. It emits no code.
-/

namespace Diglot.Lowering

/-- How a part of an expression is probed. -/
abbrev ProbePart := Node → Lower Unit

/-- Declares a name that the unit assigns later, if it stands for nothing yet. -/
def declareForward (name : String) : Lower Unit := do
  if (← read).forward.contains name then
    let v ← sight
    if v.resolve name = .unbound && (v.session.classes.indexOf? name).isNone then
      let _ ← allocate { name, type := .var }

/-- Probes an identifier that stands alone. -/
def probeIdentifier (part : ProbePart) (ident : Identifier) : Lower Unit := do
  ident.dims.forM part
  if !ident.isThis then declareForward ident.name

/-- Probes one segment of a chain: an identifier only if it is the whole chain, and of a call the
arguments. -/
def probeSegment (part : ProbePart) (isSingle : Bool) : Node → Lower Unit
  | .identifier ident => if isSingle then probeIdentifier part ident else return
  | .call call => call.args.forM part
  | _ => return

/-- Probes a chain. -/
def probeChain (part : ProbePart) (segments : List Node) : Lower Unit := do
  if segments.isEmpty then defect .emptyChain
  (segments.map Node.unwrap).forM (probeSegment part (segments.length == 1))

/-- Probes an expression whose parts are probed by `part`. -/
def probeNode (part : ProbePart) (node : Node) : Lower Unit :=
  match node with
  | .identifier _ => probeChain part [node]
  | .call _ => probeChain part [node]
  | .member .. => do probeChain part (← chainSegments node)
  | .literal .. => return
  | .list items dims _ _ => (items ++ dims).forM part
  | .range first last step _ => do
    part first
    part last
    step.toList.forM part
  | .unary _ operand _ => part operand
  | .binary left op right span =>
    match OpCode.ofBinary? op with
    | none => haltOnDot op span
    | some _ => do
      part left
      part right
  | .group inner dims guides _ =>
    if isMovable inner dims then part (inner.ungroup dims guides)
    else do
      part inner
      dims.forM part
  | .defaultArg _ => return
  | .dynamic _ => return
  | statement => haltOnStatement statement.span

/-- Probes an expression of at most the given depth. -/
def probeWithin : Nat → Node → Lower Unit
  | 0, _ => defect .depthExceeded
  | depth + 1, node => probeNode (probeWithin depth) node

/-- Declares the names that an expression reads before the unit assigns them. -/
def probe (node : Node) : Lower Unit := probeWithin node.weight node

end Diglot.Lowering

/-! ## Statements -/

namespace Diglot.Lowering

/-- Takes the identity of the next dependency node. -/
def nextUid : Lower Nat := do
  let uid := (← getSession).nextUid
  modifySession fun s => { s with nextUid := uid + 1 }
  return uid

/-- A node for a statement of the current block. -/
def freshNode (isTemporary : Bool) : Lower GraphNode := do
  let frame ← read
  let uid ← nextUid
  return { uid, block := frame.block, procedure := frame.scope.procedure
           classScope := frame.scope.classScope, isTemporary }

/-- Lowers code whose reads become dependencies of a node, and tells what became of the node. -/
def tracking {α : Type} (node : GraphNode) (m : Lower α) : Lower (α × GraphNode) := do
  modify fun s => { s with node }
  let result ← withReader (fun f => { f with isTracked := true }) m
  return (result, (← get).node)

/-- Makes a node part of the program. -/
def commit (node : GraphNode) : Lower Unit := do
  if node.isSealed then defect (.sealedTwice node.uid)
  note .trace .graph ("sealed " ++ node.text)
  modifyBlock node.block fun b => { b with graph := b.graph.push { node with isSealed := true } }

/-- Holds a node back until the chain that it was split off is complete. -/
def hold (node : GraphNode) : Lower Unit := modify fun s => { s with held := s.held ++ [node] }

/-- The type of a value of unknown type: what the last called procedure is declared to return. -/
def refineType (type : Ty) : Lower Ty := do
  if type.is .var then
    let s ← getSession
    match (← get).lastCallee.bind s.procedure? with
    | some p => return p.returns
    | none => return type
  else return type

/-- Lowers the value and the store of a statement, and tells its range and what it writes.
`isLast` tells that the chain that is being split ends here. -/
def lowerValueAndStore (target value : Node) (isLast : Bool) : Lower (Nat × Nat × Path) := do
  let startPc ← pc
  let type ← expression value
  let endPc := (← pc) - 1
  if isLast then recordSplitChain
  let updated ← assignTo target (← refineType type)
  return (startPc, endPc, updated)

/-- Lowers an assignment as a statement with a node of its own. -/
def graphStatement (target value : Node) (span : Span) (isTemporary isLast : Bool) :
    Lower GraphNode := do
  let fresh ← freshNode isTemporary
  probe value
  let ((startPc, endPc, updated), node) ←
    tracking fresh (lowerValueAndStore target value isLast)
  let _ ← emitDepx
  note .trace .code
    ("statement at " ++ span.record ++ " lowered into " ++ toString startPc ++ "..=" ++
      toString endPc)
  return { node with startPc, endPc, updated := some updated }

/-! ## Splitting chains -/

/-- The class that the first segment of a chain names, if no variable hides it. -/
def splitAnchor? (v : Sight) (segments : List Node) : Option Nat :=
  match segments with
  | .identifier root :: _ :: _ =>
    match v.resolve root.name with
    | .unbound => v.session.classes.indexOf? root.name
    | _ => none
  | _ => none

/-- Remembers segments of the chain that is being split. -/
def pushPointers (segments : List Node) : Lower Unit :=
  modify fun s => { s with pointers := s.pointers ++ segments }

/-- Lowers a factor of a split chain and those behind it. The last one goes to the target. -/
def lowerFactors (target : Node) (span : Span) (factor : Node) (anchor : Option Nat) :
    List Node → Lower Unit
  | [] => do
    let temporary := Node.identifier (.plain (← nextTemporary "%ssa_") span)
    hold (← withReader (fun f => { f with anchor }) (graphStatement temporary factor span true true))
    hold (← graphStatement target temporary span false false)
  | segment :: rest => do
    let temporary := Node.identifier (.plain (← nextTemporary "%ssa_") span)
    hold (← withReader (fun f => { f with anchor }) (graphStatement temporary factor span true false))
    pushPointers [segment]
    lowerFactors target span (.member temporary segment .dot rest.isEmpty span) none rest

/-- Splits a chain. The name of a class stays together with the segment behind it. -/
def splitChain (target : Node) (segments : List Node) (span : Span) : Lower Unit := do
  match splitAnchor? (← sight) segments, segments with
  | some cls, root :: second :: rest => do
    pushPointers [root, second]
    lowerFactors target span (.member root second .dot false span) (some cls) rest
  | _, root :: rest => do
    pushPointers [root]
    lowerFactors target span root none rest
  | _, [] => defect .emptyChain

/-- Lowers the assignment of a chain that is split. -/
def lowerSplit (target chain : Node) (span : Span) : Lower Unit := do
  let segments ← chainSegments chain
  modify fun s => { s with pointers := [], held := [] }
  splitChain target segments span
  let held := (← get).held
  modify fun s => { s with pointers := [], held := [] }
  held.forM commit

/-! ## Statements -/

/-- The value is a chain that the options want split. -/
def isSplit (o : Options) : Node → Bool
  | .member _ _ _ lastFactor _ => o.fullSsa && !lastFactor
  | _ => false

/-- Lowers an assignment. -/
def lowerUpdate (target value : Node) (span : Span) : Lower Unit := do
  modify fun s => { s with lastCallee := none }
  if isSplit (← getSession).options value then lowerSplit target value span
  else commit (← graphStatement target value span false false)

/-- What a return statement writes, as a path. -/
def returnPath (cls : Option Nat) : Path := [.ofName "return" none cls]

/-- Lowers a return statement with a node of its own. -/
def lowerReturn (value : Option Node) (span : Span) : Lower Unit := do
  let fresh ← freshNode false
  let (_, node) ← tracking fresh (returnStatement value span)
  commit { node with updated := some (returnPath (← classScope)) }

/-- Lowers an expression whose value goes to a made-up variable. -/
def lowerUnnamed (node : Node) : Lower Unit := do
  let temporary := Node.identifier (.plain (← nextTemporary "%t") node.span)
  lowerUpdate temporary node node.span

/-- Classes are declared at the top level of a unit. -/
def mayDeclareClass : Lower Bool := do
  let frame ← read
  let block ← getBlock frame.block
  return block.kind == .global && frame.scope.procedure.isNone && frame.scope.classScope.isNone

/-- Lowers a class where classes may be declared. -/
def lowerTopLevelClass (statement : LowerStatement) (c : ClassDecl) : Lower Unit := do
  if ← mayDeclareClass then lowerClass statement c
  else
    halt .classOutsideAssociative
      ("Class '" ++ c.name ++ "' must be declared in the global block.") c.span

/-- Reports control flow in an associative block. -/
def haltOnControl {α : Type} (span : Span) : Lower α :=
  halt .imperativeConstructInAssociative "Control flow statements require an imperative block." span

/-- Lowers a statement of an associative block. No jump leaves it. -/
def associativeStatement (statement : LowerStatement) (node : Node) : Lower Unit :=
  match node with
  | .assign target value span => lowerUpdate target value span
  | .ret value span => lowerReturn value span
  | .varDecl v => lowerVariable statement v
  | .function f => lowerFunction statement f false
  | .classDecl c => lowerTopLevelClass statement c
  | .block dialect body span => lowerBlock statement dialect body span
  | .branch _ _ _ span => haltOnControl span
  | .loop _ _ span => haltOnControl span
  | .breakLoop span => haltOnControl span
  | .continueLoop span => haltOnControl span
  | other => lowerUnnamed other

end Diglot.Lowering
