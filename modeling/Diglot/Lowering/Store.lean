import Diglot.Lowering.Allocation
import Diglot.Lowering.Expression

/-! # Storing values

The target of an assignment takes the value on top of the stack. A name that stands for nothing is
declared with the type of the value. A member is stored through its setter in an associative block,
and through the segments of its chain otherwise.

Each store tells the path that it writes.
-/

set_option autoImplicit false

namespace Diglot.Lowering

/-- Lowers code whose reads are no dependencies. -/
def untracked {α : Type} (m : Lower α) : Lower α :=
  withReader (fun f => { f with isTracked := false }) m

/-- The type of a variable that is declared by its first value. -/
def declaredType (value : Ty) : Ty :=
  if value.uid.isNone || value.is .null then .var else value

/-- The symbol that an assignment to a plain name writes, declared if need be. -/
def targetSymbol (ident : Identifier) (type : Ty) : Lower SymbolRef := do
  match (← sight).resolve ident.name with
  | .found r => return r
  | .inaccessible _ =>
    report .propertyInaccessible ("Property '" ++ ident.name ++ "' is inaccessible.") ident.span
    allocate { name := ident.name, type := declaredType type }
  | .unbound => allocate { name := ident.name, type := declaredType type }

/-- Stores into a plain name. -/
def storeIdentifier (ident : Identifier) (type : Ty) : Lower Path := do
  let r ← targetSymbol ident type
  let symbol ← getSymbol r
  lowerDims expression ident.dims
  let dims := ident.dims.length
  if 0 < dims then
    let literals := literalDims (← read).dialect ident.dims
    recordIndexing literals
    recordSplitDims literals true
  let _ ← emitStore symbol dims ident.span
  return [.ofName ident.name (some r) symbol.classScope]

/-- The setter through which an associative block stores a member. -/
def setter? (v : Sight) (cls : Option Nat) (property : Identifier) : Option ProcRef :=
  match v.frame.dialect, cls, property.dims with
  | .associative, some cls, [] =>
    ((v.session.classes.lookupProcedure cls (setterName property.name) 1
      v.frame.scope.classScope).found?).map fun m => ⟨some m.owner, m.index⟩
  | _, _, _ => none

/-- Pushes the last segment of an assigned chain. -/
def lowerProperty (property : Identifier) (c : Cursor) (resolution : Resolution) (span : Span) :
    Lower Cursor := do
  match resolution with
  | .found r =>
    let symbol ← getSymbol r
    let _ ← emitPushm (.ofSymbol symbol) symbol.classScope span
    return c.track (.ofName property.name (some r) symbol.classScope)
  | .inaccessible _ =>
    report .propertyInaccessible ("Property '" ++ property.name ++ "' is inaccessible.")
      property.span
    let _ ← emitPushNull property.span
    return c
  | .unbound =>
    if c.receiver?.isSome then warnUnbound property.name property.span
    let (i, c) ← registerLateVariable property.name c
    let _ ← emitPushm (.dynamic i) (← classScope) span
    return c.track (.ofName property.name none none)

/-- Stores into the member that the segments so far lead to, without a setter. -/
def storeProperty (property : Identifier) (c : Cursor) (span : Span) : Lower Path := do
  let v ← sight
  let resolution :=
    match c.receiver? with
    | some cls => v.inClass cls property.name
    | none => .unbound
  lowerDims expression property.dims
  let dims := property.dims.length
  if 0 < dims then
    recordIndexing (literalDims v.frame.dialect property.dims)
    let _ ← emitPushDims dims
  let c ← lowerProperty property c resolution span
  let _ ← emitPoplist (c.depth + 1) v.frame.scope.classScope span
  return c.path

/-- Stores into a member behind the given segments. -/
def storeMember (property : Identifier) (segments : List Node) (span : Span) : Lower Path := do
  let c ← untracked (lowerSegments expression false (segments.map Node.unwrap) (.start false))
  let v ← sight
  if c.isStopped then
    let _ ← emitPoplist c.depth v.frame.scope.classScope span
    return c.path
  match setter? v c.receiver? property with
  | some r =>
    let _ ← emitCallTo .call r c.depth span
    return (c.track (.ofName property.name none r.classScope)).path
  | none => storeProperty property c span

/-- Stores into an assigned chain, whose last segment has to be an identifier. -/
def storeChain (target : Node) : Lower Path := do
  let segments ← chainSegments target
  match segments.getLast? with
  | none => defect .emptyChain
  | some (.identifier property) => storeMember property segments.dropLast target.span
  | some _ =>
    halt .invalidAssignmentTarget
      "The last segment of an assigned member access must be an identifier." target.span

/-- Stores the value on top, which has the given type, and tells the path that was written. -/
def assignTo (target : Node) (type : Ty) : Lower Path :=
  match target with
  | .identifier ident =>
    if ident.isThis then invalid ident.span else storeIdentifier ident type
  | .member .. => storeChain target
  | other => invalid other.span
where
  /-- Reports a target that cannot be assigned. -/
  invalid (span : Span) : Lower Path :=
    halt .invalidAssignmentTarget "Only identifiers and member accesses can be assigned." span

end Diglot.Lowering
