import Diglot.Lowering.Dependency
import Diglot.Lowering.Literal
import Diglot.Source.Weight

/-! # Lowering expressions

Code for an expression leaves its value on top of the stack. Each form of expression has a function
of its own, which lowers its parts through a callback; `expression` ties them together by recursion
on the weight of the tree.

- `lowerChain` lowers identifiers, calls and dotted chains, segment by segment.
- `lowerIdentifier` and `lowerCall` lower one segment and move the `Cursor` on.
- `lowerDims` lowers subscripts.
-/

set_option autoImplicit false

namespace Diglot.Lowering

/-- How a part of an expression is lowered. -/
abbrev LowerPart := Node → Lower Ty

/-- Lowers code whose values carry no replication guides. -/
def unguided {α : Type} (m : Lower α) : Lower α := withReader (fun f => { f with isGuided := false }) m

/-- Lowers the arguments and subscripts of a call, which carry guides in an associative block if the
options ask for them. -/
def guidedCall {α : Type} (m : Lower α) : Lower α := do
  let on := (← getSession).options.replicationGuides
  withReader
    (fun f => { f with isGuided := match f.dialect with
      | .associative => on
      | .imperative => false }) m

/-! ## Subscripts -/

/-- The integer literal that a subscript is, as a segment of a dependency. -/
def literalDim? : Node → Option Segment
  | .literal .int source _ => some (.ofLiteral source)
  | _ => none

/-- The literal subscripts that a dependency shows; only associative blocks have dependencies. -/
def literalDims (dialect : Dialect) (dims : List Node) : List Segment :=
  match dialect with
  | .associative => dims.filterMap literalDim?
  | .imperative => []

/-- Pushes subscripts. -/
def lowerDims (part : LowerPart) (dims : List Node) : Lower Unit :=
  unguided (dims.forM fun d => do
    let _ ← part d)

/-! ## Late-bound names -/

/-- Registers a member that is looked up at run time. It joins the entry of the member before it in
the same chain. -/
def registerLateVariable (name : String) (c : Cursor) : Lower (Nat × Cursor) := do
  let s ← getSession
  match c.lateEntry with
  | some i =>
    if i < s.lateVariables.size then
      modifySession fun s =>
        { s with
          lateVariables := s.lateVariables.modify i fun e => { e with members := e.members ++ [name] } }
      return (i, c)
  | none => pure ()
  let i := s.lateVariables.size
  let scope := (← read).scope
  let entry : LateVariable :=
    { name, members := [], function := scope.function, classScope := scope.classScope }
  modifySession fun s => { s with lateVariables := s.lateVariables.push entry }
  return (i, { c with lateEntry := some i })

/-- Registers a procedure that is looked up at run time. -/
def registerLateFunction (name : String) (arity : Nat) : Lower Nat := do
  let i := (← getSession).lateFunctions.size
  let scope := (← read).scope
  let entry : LateFunction :=
    { name, arity, function := scope.function, classScope := scope.classScope }
  modifySession fun s => { s with lateFunctions := s.lateFunctions.push entry }
  return i

/-- What a message adds about a similar name. -/
def hintText (hint : Option String) : String :=
  match hint with
  | some h => " Did you mean '" ++ h ++ "'?"
  | none => ""

/-- Warns about a name that stands for nothing. -/
def warnUnbound (name : String) (span : Span) : Lower Unit := do
  let hint := Text.suggest name (← sight).visibleNames
  report .unboundIdentifier ("'" ++ name ++ "' is not defined." ++ hintText hint) span

/-- Warns about a call of a procedure that does not exist. -/
def warnFunctionNotFound (name : String) (arity : Nat) (span : Span) : Lower Unit := do
  let hint := Text.suggest name (← sight).visibleProcedures
  report .functionNotFound
    ("Function '" ++ name ++ "' with " ++ toString arity ++ " argument(s) is not found." ++
      hintText hint) span

/-! ## Segments of a chain -/

/-- Replaces a segment by null and ends the chain. -/
def stopChain (c : Cursor) (span : Span) : Lower Cursor := do
  let _ ← emitPushNull span
  return { c with type := .null, depth := c.depth + 1, isStopped := true }

/-- Lowers the current object at the root of a chain. -/
def lowerThis (ident : Identifier) (c : Cursor) : Lower Cursor := do
  let cls ← classScope
  let _ ← if c.isSingle then emitPushThis ident.span else emitPushm .this cls ident.span
  return { c with type := objectType cls, depth := c.depth + 1 }.track (.ofName ident.name none cls)

/-- Lowers a segment that was resolved to a symbol. Through the name of a class only a static member
can be used. -/
def lowerSymbol (part : LowerPart) (ident : Identifier) (c : Cursor) (r : SymbolRef) :
    Lower Cursor := do
  let symbol ← getSymbol r
  match (if symbol.isStatic then none else c.anchor) with
  | some cls =>
    report .callingNonStaticOnClass
      ("'" ++ ident.name ++ "' is not a static member of class '" ++ (← sight).className cls ++
        "'.") ident.span
    stopChain c ident.span
  | none =>
    lowerDims part ident.dims
    let dims := ident.dims.length
    let literals := literalDims (← read).dialect ident.dims
    recordSplitDims literals false
    if c.isSingle then
      let _ ← emitPush (.ofSymbol symbol) dims ident.span
    else
      if 0 < dims then
        let _ ← emitPushDims dims
      let _ ← emitPushm (.ofSymbol symbol) symbol.classScope ident.span
    let c := c.track { Segment.ofName ident.name (some r) symbol.classScope with dims := literals }
    return { c with type := symbol.type.subscripted dims, depth := c.depth + 1, anchor := none }

/-- Lowers the name of a class at the root of a chain. -/
def lowerClassName (ident : Identifier) (c : Cursor) (cls : Nat) : Lower Cursor := do
  let _ ← if c.isSingle then emitPush (.cls (some cls)) 0 ident.span
    else emitPushm (.cls (some cls)) (some cls) ident.span
  let c := c.track (.ofName ident.name none (some cls))
  return { c with type := .scalar cls, depth := c.depth + 1, anchor := some cls }

/-- Lowers a segment that names a member which may not be used here. -/
def lowerInaccessible (ident : Identifier) (c : Cursor) : Lower Cursor := do
  report .propertyInaccessible ("Property '" ++ ident.name ++ "' is inaccessible.") ident.span
  let c :=
    match (← sight).hiddenMember? ident.name c with
    | some s => c.track s
    | none => c
  stopChain c ident.span

/-- Lowers a segment that is looked up at run time. -/
def lowerLate (part : LowerPart) (ident : Identifier) (c : Cursor) : Lower Cursor := do
  if c.receiver?.isSome then warnUnbound ident.name ident.span
  let (i, c) ← registerLateVariable ident.name c
  lowerDims part ident.dims
  if 0 < ident.dims.length then
    let _ ← emitPushDims ident.dims.length
  let _ ← emitPushm (.dynamic i) (← classScope) ident.span
  return { c with type := .var, depth := c.depth + 1, isLate := true, anchor := none }

/-- Lowers an identifier in a chain. -/
def lowerIdentifier (part : LowerPart) (ident : Identifier) (c : Cursor) : Lower Cursor := do
  if ident.isThis && c.depth == 0 then lowerThis ident c
  else
    match (← sight).segmentTarget ident.name c with
    | .symbol r => lowerSymbol part ident c r
    | .cls id => lowerClassName ident c id
    | .inaccessible => lowerInaccessible ident c
    | .arrayReceiver => stopChain c ident.span
    | .unbound =>
      if c.depth = 0 then do
        warnUnbound ident.name ident.span
        stopChain c ident.span
      else lowerLate part ident c

/-- Why a procedure cannot be called through the name of a class. -/
def nonStaticMessage (v : Sight) (name : String) (anchor : Option Nat) : String :=
  match anchor.bind fun cls => v.session.classes.staticProcedure? cls name, propertyName? name with
  | some _, _ => "Method '" ++ name ++ "' is called with invalid arguments."
  | none, some property => "Property '" ++ property ++ "' is inaccessible."
  | none, none =>
    let cls := match anchor with
      | some cls => v.className cls
      | none => "?"
    "Method '" ++ name ++ "' of class '" ++ cls ++ "' is not static."

/-- Emits the call of a procedure that was found, and tells its type and its segment. -/
def lowerKnownCall (call : Call) (c : Cursor) (r : ProcRef) : Lower (Ty × Segment) := do
  let _ ← emitCallTo .callr r c.depth call.span
  match (← getSession).procedure? r with
  | none => defect (.missingProcedure r)
  | some p =>
    if !p.isConstructor && !p.isGenerated && !p.isStaticInitializer then
      modify fun s => { s with lastCallee := some r }
    return (callType p, callSegment p call.name)

/-- Emits a call that is looked up at run time. -/
def lowerLateCall (call : Call) (c : Cursor) : Lower (Ty × Segment) := do
  let arity := call.args.length
  if c.depth = 0 || c.receiver?.isSome then warnFunctionNotFound call.name arity call.span
  let i ← registerLateFunction call.name arity
  let _ ← emitLateCall i c.depth call.span
  return (.var, .ofMethod call.name)

/-- Lowers arguments, the call itself and the subscripts behind it. -/
def lowerInvocation (part : LowerPart) (call : Call) (c : Cursor) (target : Option ProcRef) :
    Lower Cursor := do
  call.args.forM fun a => do
    let _ ← part a
  let (type, segment) ←
    match target with
    | some r => lowerKnownCall call c r
    | none => lowerLateCall call c
  lowerDims part call.dims
  let dims := call.dims.length
  if 0 < dims then
    let _ ← emitPushIndex (.arrayDim dims)
  let literals := literalDims (← read).dialect call.dims
  let c := c.track { segment with dims := literals }
  return { c with
    type := type.subscripted dims
    depth := 1
    afterCall := true
    anchor := none
    lateEntry := none
    hasCall := c.hasCall || target.isSome }

/-- Lowers a call in a chain, once it is known to be no read of a member. -/
def lowerResolvedCall (part : LowerPart) (call : Call) (c : Cursor) : Lower Cursor := do
  let v ← sight
  match v.callTarget call.name call.args.length c with
  | .procedure r => lowerInvocation part call c (some r)
  | .unresolved => lowerInvocation part call c none
  | .nonStatic =>
    report .callingNonStaticOnClass (nonStaticMessage v call.name c.anchor) call.span
    stopChain c call.span
  | .inaccessible =>
    report .methodInaccessible ("Method '" ++ call.name ++ "' is inaccessible.") call.span
    stopChain c call.span
  | .arrayReceiver => stopChain c call.span

/-- The member that a call of an accessor reads, if the call has no arguments, stands behind
another segment, and the member is there. -/
def accessedProperty? (v : Sight) (call : Call) (c : Cursor) : Option String :=
  match propertyName? call.name with
  | none => none
  | some property =>
    if call.args.isEmpty && decide (0 < c.depth) then
      match v.segmentTarget property c with
      | .symbol _ => some property
      | .inaccessible => some property
      | _ => none
    else none

/-- Lowers a call in a chain. A call of an accessor without arguments reads the member itself. -/
def lowerCall (part : LowerPart) (call : Call) (c : Cursor) : Lower Cursor :=
  guidedCall do
    match accessedProperty? (← sight) call c with
    | some property => lowerIdentifier part ⟨property, call.dims, [], call.span⟩ c
    | none => lowerResolvedCall part call c

/-- Lowers a computed value at the root of a chain. -/
def lowerValueRoot (part : LowerPart) (root : Node) (c : Cursor) : Lower Cursor := do
  let type ← part root
  return { c with type, depth := 1, afterCall := true, isLate := true }

/-- The node can be the computed root of a chain. -/
def isValueRoot : Node → Bool
  | .group .. => true
  | .list .. => true
  | node => node.isString

/-- Lowers one segment of a chain; `isRoot` tells that it is the first. -/
def lowerSegment (part : LowerPart) (isRoot : Bool) (segment : Node) (c : Cursor) :
    Lower Cursor :=
  match segment with
  | .identifier ident => lowerIdentifier part ident c
  | .call call => lowerCall part call c
  | other =>
    if isRoot && isValueRoot other then lowerValueRoot part other c
    else
      halt .nonIdentifierSegment "A member access segment must be an identifier or a call."
        other.span

/-- Lowers segments until the chain is stopped. -/
def lowerSegments (part : LowerPart) : Bool → List Node → Cursor → Lower Cursor
  | _, [], c => return c
  | isRoot, segment :: rest, c => do
    if c.isStopped then return c
    let c ← lowerSegment part isRoot segment c
    lowerSegments part false rest c

/-- Lowers a chain and records it as a dependency. -/
def lowerChain (part : LowerPart) (segments : List Node) (span : Span) : Lower Ty := do
  if segments.isEmpty then defect .emptyChain
  let segments := segments.map Node.unwrap
  if ← guidesWanted then emitGuides ((segments.getLast?.map Node.guides).getD [])
  let c ← lowerSegments part true segments (.start (segments.length == 1))
  if 1 < c.depth then
    let _ ← emitPushlist c.depth c.afterCall span
  recordRead c.path c.hasCall
  return if c.isStopped then .null else c.type

/-- The segments of a chain, which have to be joined by dots. -/
def chainSegments (node : Node) : Lower (List Node) := do
  match node.segments with
  | .ok segments => return segments
  | .error span =>
    halt .invalidIndirection "Only the '.' operator may join the segments of an identifier list."
      span

/-! ## Other expressions -/

/-- The type that the items of a list have in common so far. -/
def commonType (common : Option Ty) (type : Ty) : Ty :=
  match common with
  | none => type
  | some c => if c.uid = type.uid then c else .var

/-- Lowers the items of a list and tells the type that they have in common. -/
def lowerItems (part : LowerPart) : Option Ty → List Node → Lower (Option Ty)
  | common, [] => return common
  | common, item :: rest => do
    let type ←
      match item with
      | .literal kind source span => lowerLiteral kind source span (common.getD .unknown)
      | other => part other
    lowerItems part (some (commonType common type)) rest

mutual

/-- The rank that an item gives the list around it, apart from the list's own. -/
def itemRank : Node → Int
  | .list items _ _ _ => literalRank items
  | .literal .string _ _ => 1
  | _ => 0

/-- The rank of a list literal, read off its first items. -/
def literalRank : List Node → Int
  | [] => 0
  | first :: _ => itemRank first + 1

end

/-- The class of the elements of a list. -/
def elementUid (common : Option Ty) : Option Nat :=
  match common.bind Ty.uid with
  | some uid => some uid
  | none => some Primitive.var.uid

/-- Lowers a list literal. -/
def lowerList (part : LowerPart) (items dims : List Node) (guides : List Guide) : Lower Ty := do
  let common ← unguided (lowerItems part none items)
  let _ ← emitAlloca items.length false
  lowerDims part dims
  if 0 < dims.length then
    let _ ← emitPushIndex (.arrayDim dims.length)
  if ← guidesWanted then emitGuides guides
  return Ty.subscripted ⟨elementUid common, literalRank items⟩ dims.length

/-- Lowers a range. Without a step, null takes its place. -/
def lowerRange (part : LowerPart) (first last : Node) (step : Option Node) (span : Span) :
    Lower Ty := do
  let _ ← part first
  let _ ← part last
  match step with
  | some step => let _ ← part step
  | none => let _ ← emitPushNull span
  let _ ← emit (.bare .range) span
  return ⟨some Primitive.var.uid, 1⟩

/-- Lowers an operator with one operand. -/
def lowerUnary (part : LowerPart) (op : UnaryOperator) (operand : Node) (span : Span) :
    Lower Ty := do
  let type ← part operand
  let _ ← emitPop (.register .ax) (← classScope) span
  let _ ← emit (.unary (.ofUnary op) (.register .ax)) span
  let _ ← emitPush (.register .ax) 0 span
  return if op = .not then .primitive .bool else type

/-- A number that arithmetic can mix with others. -/
def isNumber (t : Ty) : Bool := t.rank == 0 && (t.is .int || t.is .double)

/-- The type of an operator with two operands. -/
def binaryType (op : Operator) (left right : Ty) : Ty :=
  if op.isBoolean then .primitive .bool
  else if left.uid = right.uid ∧ left.rank = right.rank then left
  else if isNumber left && isNumber right then .primitive .double
  else .var

/-- Reports a dot where an operator is expected. -/
def haltOnDot {α : Type} (op : Operator) (span : Span) : Lower α :=
  halt .invalidIndirection ("Operator '" ++ op.symbol ++ "' cannot be used in an expression.") span

/-- Lowers an operator with two operands. -/
def lowerBinary (part : LowerPart) (left : Node) (op : Operator) (right : Node) (span : Span) :
    Lower Ty := do
  match OpCode.ofBinary? op with
  | none => haltOnDot op span
  | some opcode =>
    let leftType ← part left
    let rightType ← part right
    let cls ← classScope
    let _ ← emitPop (.register .bx) cls span
    let _ ← emitPop (.register .ax) cls span
    let _ ← emit (.binary opcode (.register .ax) (.register .bx)) span
    let _ ← emitPush (.register .ax) 0 span
    return binaryType op leftType rightType

/-- The subscripts behind a group move onto its inside. -/
def isMovable (inner : Node) (dims : List Node) : Bool :=
  !dims.isEmpty && inner.dims.isEmpty &&
    match inner with
    | .identifier _ => true
    | .call _ => true
    | .list .. => true
    | _ => false

/-- Lowers an expression in parentheses. -/
def lowerGroup (part : LowerPart) (inner : Node) (dims : List Node) (guides : List Guide) :
    Lower Ty := do
  if isMovable inner dims then part (inner.ungroup dims guides)
  else
    let type ← part inner
    lowerDims part dims
    if 0 < dims.length then
      let _ ← emitPushIndex (.arrayDim dims.length)
    return type.subscripted dims.length

/-- Reports a statement where a value is expected. -/
def haltOnStatement {α : Type} (span : Span) : Lower α :=
  halt .unexpectedStatement "A statement cannot be used as a value." span

/-! ## Tying the forms together -/

/-- Lowers an expression whose parts are lowered by `part`. -/
def lowerNode (part : LowerPart) (node : Node) : Lower Ty :=
  match node with
  | .identifier _ => lowerChain part [node] node.span
  | .call _ => lowerChain part [node] node.span
  | .member _ _ _ _ span => do lowerChain part (← chainSegments node) span
  | .literal kind source span => lowerLiteral kind source span .unknown
  | .list items dims guides _ => lowerList part items dims guides
  | .range first last step span => lowerRange part first last step span
  | .unary op operand span => lowerUnary part op operand span
  | .binary left op right span => lowerBinary part left op right span
  | .group inner dims guides _ => lowerGroup part inner dims guides
  | .defaultArg span => do
    let _ ← emitPush .defaultArg 0 span
    return .var
  | .dynamic span => do
    let _ ← emitPush (.dynamic 0) 0 span
    return .var
  | statement => haltOnStatement statement.span

/-- Lowers an expression of at most the given depth. -/
def expressionWithin : Nat → Node → Lower Ty
  | 0, _ => defect .depthExceeded
  | depth + 1, node => lowerNode (expressionWithin depth) node

/-- Lowers an expression and tells the type of its value. -/
def expression (node : Node) : Lower Ty := expressionWithin node.weight node

end Diglot.Lowering
