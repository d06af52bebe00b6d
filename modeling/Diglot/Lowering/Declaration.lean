import Diglot.Lowering.Allocation
import Diglot.Lowering.Attribute
import Diglot.Lowering.Expression
import Diglot.Source.Tree

/-! # Lowering declarations

Variables, procedures, classes and nested language blocks. The statements in their bodies are
lowered through a callback, which tells the jumps that leave a loop from inside the statement.

- `lowerUnit` lowers a body into a block of its own.
- `lowerFunction` registers a procedure and lowers its body.
- `lowerClass` lays out the members of a class and lowers its procedures, those that the class does
  not write down included: accessors, the initializer of static members, and a constructor.
-/

set_option autoImplicit false

/-! ## Returning

A return statement leaves the procedure, or the language block, with a value. A value that cannot be
converted to the declared type is reported and replaced by null. Code that does not end with a
return is closed by one.
-/

namespace Diglot.Lowering

/-- The procedure whose code is being lowered. -/
def currentProcedure? : Lower (Option Procedure) := do
  let s ← getSession
  return (← read).scope.procedure.bind s.procedure?

/-- Lowers the value of a return statement; without one, null takes its place. -/
def lowerReturned (value : Option Node) (span : Span) : Lower Ty := do
  match value with
  | some v => expression v
  | none =>
    let _ ← emitPushNull span
    return .null

/-- The returned type cannot stand for the declared one. -/
def isMismatch (classes : ClassTable) (returned declared : Ty) : Bool :=
  !declared.is .var && !returned.is .var && returned.uid.isSome &&
    !classes.isConvertible returned.uid declared.uid

/-- Replaces a returned value of the wrong type by null. -/
def checkReturned (procedure : Option Procedure) (type : Ty) (span : Span) : Lower Unit := do
  match procedure with
  | none => return
  | some p =>
    if isMismatch (← getSession).classes type p.returns then
      report .mismatchReturnType
        ("Function '" ++ p.name ++ "' returns " ++ type.text ++ ", but " ++ p.returns.text ++
          " is expected.") span
      let _ ← emitPop (.register .bx) none span
      let _ ← emitPushNull span

/-- Lowers a return statement. A constructor cannot have one. -/
def returnStatement (value : Option Node) (span : Span) : Lower Unit := do
  let procedure ← currentProcedure?
  match procedure with
  | some p =>
    if p.isConstructor then
      halt .returnInConstructor ("Constructor '" ++ p.name ++ "' cannot return a value.") span
  | none => pure ()
  let startPc ← pc
  let type ← lowerReturned value span
  let endPc := (← pc) - 1
  modifyNode fun n => { n with startPc, endPc }
  checkReturned procedure type span
  let _ ← emitResult span

/-- The node is a return statement. -/
def isReturn : Node → Bool
  | .ret .. => true
  | _ => false

/-- Closes the code of a unit. A constructor returns its object, and another procedure null. -/
def closeUnit (unit : List Node) : Lower Unit := do
  let frame ← read
  if !frame.scope.isBody frame.block then
    let _ ← emitLeave
  else if (unit.getLast?.map isReturn).getD false then return
  else
    let _ ← if ((← currentProcedure?).map Procedure.isConstructor).getD false then emitPushThis .nil
      else emitPushNull .nil
    let _ ← emitResult .nil

end Diglot.Lowering

/-! ## Bodies and declarations -/

namespace Diglot.Lowering

/-- Jumps that leave the innermost loop, or go on with its next round, and wait for their target. -/
structure Exits where
  breaks : List Nat := []
  continues : List Nat := []
  deriving DecidableEq, Inhabited

namespace Exits

/-- No jump waits. -/
def none : Exits := {}

/-- The jumps of two stretches of code. -/
def append (a b : Exits) : Exits := ⟨a.breaks ++ b.breaks, a.continues ++ b.continues⟩

end Exits

/-- How a statement is lowered. -/
abbrev LowerStatement := Node → Lower Exits

/-- Lowers statements one after the other. -/
def lowerAll (statement : LowerStatement) : List Node → Lower Exits
  | [] => return .none
  | s :: rest => do
    let first ← statement s
    return first.append (← lowerAll statement rest)

/-! ## Types and variables -/

/-- The type that a written type stands for. -/
def resolveType (type : TypeName) (span : Span) : Lower Ty := do
  match (← getSession).classes.indexOf? type.name with
  | some uid => return ⟨some uid, type.rank⟩
  | none => halt .unknownType ("Unknown type '" ++ type.name ++ "'.") span

/-- The assignment of the first value of a variable. -/
def initializer? (v : Variable) : Option Node :=
  v.value.map fun value => .assign (.identifier (.plain v.name v.span)) value v.span

/-- Lowers the declaration of a variable, with its box and its first value. -/
def lowerVariable (statement : LowerStatement) (v : Variable) : Lower Unit := do
  let type ← resolveType v.type v.span
  let symbol ← getSymbol (← allocate (.ofVariable v type))
  emitHeapBox symbol
  match initializer? v with
  | some assignment => let _ ← statement assignment
  | none => return

/-! ## Units -/

/-- Lowers code with a frame of its own. What the code around it is in the middle of is put aside
and taken up again afterwards. -/
def nested {α : Type} (frame : Frame) (m : Lower α) : Lower α := do
  let outer ← get
  set ({ session := outer.session } : State)
  let result ← withReader (fun _ => frame) m
  modify fun s => { outer with session := s.session }
  return result

/-- The frame of a unit in a block. An associative unit may read names before it assigns them. -/
def unitFrame (block : Nat) (scope : Scope) (dialect : Dialect) (unit : List Node) : Frame :=
  { block, scope, dialect
    forward := match dialect with
      | .associative => forwardNames unit
      | .imperative => [] }

/-- Lowers a unit into a block: its parameters, its statements, and what closes it. -/
def lowerUnit (statement : LowerStatement) (block : Nat) (scope : Scope) (dialect : Dialect)
    (unit : List Node) (params : List Argument) : Lower Unit :=
  nested (unitFrame block scope dialect unit) do
    params.forM fun p => do
      let _ ← allocate { name := p.name, type := p.type, isParameter := true }
    let _ ← lowerAll statement unit
    closeUnit unit

/-- Lowers a language block and runs it. -/
def lowerBlock (statement : LowerStatement) (dialect : Dialect) (body : List Node) (span : Span) :
    Lower Unit := do
  let frame ← read
  let child ← addBlock .language dialect frame.block
  modifyBlock child fun b => { b with procedure := frame.scope.procedure }
  lowerUnit statement child frame.scope dialect body []
  let entry := (← getBlock child).entry.getD 0
  let _ ← emitBounce child entry span

/-! ## Procedures -/

/-- Lowers code with a count of locals of its own, and tells the count. The count around it is
restored also if the code stops early. -/
def countingLocals (m : Lower Unit) : Lower Nat := do
  let outer := (← getSession).counters.locals
  let setLocals := fun n =>
    modifySession fun s => { s with counters := { s.counters with locals := n } }
  setLocals 0
  tryCatch m fun stop => do
    setLocals outer
    throw stop
  let locals := (← getSession).counters.locals
  setLocals outer
  return locals

/-- What a call has to know about the parameters. -/
def resolveParams : List Parameter → Lower (List Argument)
  | [] => return []
  | p :: rest => do
    let type ← resolveType p.type p.span
    return ⟨p.name, type, p.default.isSome⟩ :: (← resolveParams rest)

/-- Registers a procedure of the class whose body is being lowered, or of no class. -/
def registerProcedure (p : Procedure) : Lower ProcRef := do
  let scope := (← read).scope
  let s ← getSession
  match (if scope.procedure.isNone then scope.classScope else none) with
  | some cls =>
    match s.classes.get? cls with
    | none => defect (.missingClass cls)
    | some c =>
      modifySession fun s => { s with classes := s.classes.appendProcedure cls p }
      return ⟨some cls, c.procedures.size⟩
  | none =>
    modifySession fun s => { s with procedures := s.procedures.append p }
    return ⟨none, s.procedures.size⟩

/-- Lowers the definition of a procedure. -/
def lowerFunction (statement : LowerStatement) (f : Function) (isGenerated : Bool) :
    Lower Unit := do
  let returns ← resolveType f.returns f.span
  let args ← resolveParams f.params
  let attributes ← lowerAttributes f.attributes
  let r ← registerProcedure
    { name := f.name, returns, args, isConstructor := f.isConstructor, isStatic := f.isStatic
      isGenerated, access := f.access, attributes }
  let frame ← read
  let body ← addBlock .function frame.dialect frame.block
  modifyBlock body fun b => { b with procedure := some r }
  modifySession fun s => s.modifyProcedure r fun p => { p with block := some body }
  note .debug .code ("procedure '" ++ f.name ++ "' in block " ++ toString body)
  let scope : Scope := { classScope := r.classScope, procedure := some r, body := some body }
  let locals ← countingLocals (lowerUnit statement body scope frame.dialect f.body args)
  let entry := (← getBlock body).entry
  modifySession fun s => s.modifyProcedure r fun p => { p with entry, locals }

/-! ## Classes -/

/-- The name of the value that a setter takes. -/
def setterArgument : String := "%value"

/-- A procedure that the compiler makes up. -/
def generated (name : String) (params : List Parameter) (body : List Node) : Function :=
  { name, params, returns := .var, body, attributes := [], isStatic := false
    isConstructor := false, access := .isPublic, span := .nil }

/-- A bare name that points nowhere in the source. -/
def bareName (name : String) : Node := .identifier (.plain name .nil)

/-- The accessor that reads a member. -/
def getterOf (v : Variable) : Function :=
  { generated (getterName v.name) [] [.ret (some (bareName v.name)) .nil] with
    returns := v.type, access := v.access }

/-- The accessor that writes a member. -/
def setterOf (v : Variable) : Function :=
  { generated (setterName v.name) [⟨setterArgument, v.type, none, .nil⟩]
      [.assignment (bareName v.name) (bareName setterArgument)] with
    access := v.access }

/-- The procedure that gives static members their first values, if any has one. -/
def staticInitializer? (assignments : List Node) : Option Function :=
  if assignments.isEmpty then none
  else some { generated staticInitializerName [] assignments with isStatic := true }

/-- A method as it is lowered: a constructor first gives the members their first values. -/
def withInitializers (assignments : List Node) (f : Function) : Function :=
  if f.isConstructor then { f with body := assignments ++ f.body } else f

/-- The constructor of a class that writes none down. -/
def defaultConstructor (name : String) (assignments : List Node) : Function :=
  { generated name [] assignments with isConstructor := true }

/-- Gives the members of a class their places. -/
def lowerMembers : List Variable → Lower Unit
  | [] => return
  | v :: rest => do
    let type ← resolveType v.type v.span
    let _ ← allocate (.ofVariable v type)
    lowerMembers rest

/-- Lowers the members and procedures of a class. -/
def lowerClassBody (statement : LowerStatement) (c : ClassDecl) : Lower Unit := do
  lowerMembers c.members
  let instances := c.members.filter fun v => !v.isStatic
  instances.forM fun v => do
    lowerFunction statement (getterOf v) true
    lowerFunction statement (setterOf v) true
  let statics := c.members.filter Variable.isStatic
  (staticInitializer? (statics.filterMap initializer?)).toList.forM fun f =>
    lowerFunction statement f true
  let first := instances.filterMap initializer?
  c.methods.forM fun f => lowerFunction statement (withInitializers first f) false
  if !(c.methods.any Function.isConstructor) then
    lowerFunction statement (defaultConstructor c.name first) true

/-- The base class that a class names. -/
def resolveBase (c : ClassDecl) : Lower (Option Nat) := do
  match c.base with
  | none => return none
  | some name =>
    match (← getSession).classes.indexOf? name with
    | some id => return some id
    | none =>
      halt .unknownType ("Unknown base class '" ++ name ++ "' of class '" ++ c.name ++ "'.") c.span

/-- Lowers the declaration of a class. -/
def lowerClass (statement : LowerStatement) (c : ClassDecl) : Lower Unit := do
  let base ← resolveBase c
  let attributes ← lowerAttributes c.attributes
  let s ← getSession
  match s.classes.append? { name := c.name, base, attributes } with
  | none => halt .duplicateClass ("Class '" ++ c.name ++ "' is already declared.") c.span
  | some classes =>
    let id := s.classes.size
    modifySession fun s => { s with classes }
    note .debug .code ("class '" ++ c.name ++ "' is #" ++ toString id)
    withReader (fun f => { f with scope := .inClass id }) (lowerClassBody statement c)

end Diglot.Lowering
