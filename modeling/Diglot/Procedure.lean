import Diglot.Source.Tree
import Diglot.Types

/-! # Procedures

A `Procedure` is a declared function, method or constructor. Default values let it accept fewer
arguments than it has parameters.

- `ProcedureTable.find?` prefers the procedure with exactly as many parameters as arguments.
- `getterName`, `setterName` and `propertyName?` relate a member to the names of its accessors.
-/

set_option autoImplicit false

namespace Diglot

/-! ## Names with a meaning -/

/-- The procedure that gives the static members of a class their first values. -/
def staticInitializerName : String := "%init_static_properties"

/-- How the name of a reading accessor begins. -/
def getterMark : String := "%get_"

/-- How the name of a writing accessor begins. -/
def setterMark : String := "%set_"

/-- The accessor that reads a member. -/
def getterName (property : String) : String := getterMark ++ property

/-- The accessor that writes a member. -/
def setterName (property : String) : String := setterMark ++ property

/-- What follows a mark, if the characters begin with it. -/
def afterMark? : List Char → List Char → Option (List Char)
  | [], rest => some rest
  | _ :: _, [] => none
  | m :: mark, c :: rest => if m = c then afterMark? mark rest else none

/-- The name begins like that of an accessor. -/
def isAccessorName (name : String) : Bool :=
  (afterMark? getterMark.toList name.toList).isSome ||
    (afterMark? setterMark.toList name.toList).isSome

/-- The member behind the name of an accessor. A mark with nothing behind it names none. -/
def propertyName? (name : String) : Option String :=
  match (afterMark? getterMark.toList name.toList).orElse
      fun _ => afterMark? setterMark.toList name.toList with
  | some (c :: rest) => some (String.ofList (c :: rest))
  | _ => none

/-! ## Procedures and their tables -/

/-- A procedure by its class, if it has one, and its position in the table. -/
structure ProcRef where
  classScope : Option Nat
  index : Nat
  deriving DecidableEq, Inhabited

/-- What a call has to know about a parameter. -/
structure Argument where
  name : String
  type : Ty
  hasDefault : Bool
  deriving DecidableEq, Inhabited

/-- An attribute: the class that stands for it, and its constant arguments. -/
structure Attribute where
  cls : Nat
  args : List Node

/-- A function, method or constructor. -/
structure Procedure where
  name : String
  /-- The position in the table. -/
  index : Nat := 0
  classScope : Option Nat := none
  returns : Ty := .var
  args : List Argument := []
  isConstructor : Bool := false
  isStatic : Bool := false
  /-- The compiler made it up from a member or a class. -/
  isGenerated : Bool := false
  access : Access := .isPublic
  /-- The block that holds the body. -/
  block : Option Nat := none
  /-- Where the body begins. -/
  entry : Option Nat := none
  /-- How many places the parameters and local variables take. -/
  locals : Nat := 0
  attributes : List Attribute := []
  deriving Inhabited

namespace Procedure

/-- The procedure can be called with `arity` arguments. -/
def accepts (p : Procedure) (arity : Nat) : Bool :=
  decide ((p.args.filter fun a => !a.hasDefault).length ≤ arity) && decide (arity ≤ p.args.length)

/-- The name is that of an accessor. -/
def isAccessor (p : Procedure) : Bool := isAccessorName p.name

/-- The procedure gives static members their first values. -/
def isStaticInitializer (p : Procedure) : Bool := p.name == staticInitializerName

end Procedure

/-- Procedures in the order of declaration. -/
structure ProcedureTable where
  procedures : Array Procedure := #[]
  deriving Inhabited

namespace ProcedureTable

/-- The procedure at a position. -/
def get? (t : ProcedureTable) (i : Nat) : Option Procedure := t.procedures[i]?

/-- The number of procedures. -/
def size (t : ProcedureTable) : Nat := t.procedures.size

/-- All procedures in the order of declaration. -/
def toList (t : ProcedureTable) : List Procedure := t.procedures.toList

/-- Adds a procedure at the end, where it learns its position. -/
def append (t : ProcedureTable) (p : Procedure) : ProcedureTable :=
  ⟨t.procedures.push { p with index := t.procedures.size }⟩

/-- Changes the procedure at a position. -/
def modify (t : ProcedureTable) (i : Nat) (f : Procedure → Procedure) : ProcedureTable :=
  ⟨t.procedures.modify i f⟩

/-- The procedure to call by a name with `arity` arguments: the first with exactly as many
parameters, or else the first that accepts them. -/
def find? (t : ProcedureTable) (name : String) (arity : Nat) : Option Nat :=
  let candidates := t.toList.filter fun p => p.name == name && p.accepts arity
  match candidates.find? fun p => p.args.length == arity with
  | some p => some p.index
  | none => candidates.head?.map Procedure.index

/-- The first procedure of a name. -/
def findNamed? (t : ProcedureTable) (name : String) : Option Nat :=
  (t.toList.find? fun p => p.name == name).map Procedure.index

/-- The first constructor of a name that accepts `arity` arguments. -/
def findConstructor? (t : ProcedureTable) (name : String) (arity : Nat) : Option Nat :=
  (t.toList.find? fun p => p.isConstructor && p.name == name && p.accepts arity).map
    Procedure.index

/-- The first constructor, of whatever name, that accepts `arity` arguments. -/
def anyConstructor? (t : ProcedureTable) (arity : Nat) : Option Nat :=
  (t.toList.find? fun p => p.isConstructor && p.accepts arity).map Procedure.index

/-- The first static procedure of a name. -/
def findStatic? (t : ProcedureTable) (name : String) : Option Nat :=
  (t.toList.find? fun p => p.isStatic && p.name == name).map Procedure.index

@[simp] theorem size_append (t : ProcedureTable) (p : Procedure) :
    (t.append p).size = t.size + 1 := by
  simp [append, size]

@[simp] theorem get?_append_size (t : ProcedureTable) (p : Procedure) :
    (t.append p).get? t.size = some { p with index := t.size } := by
  simp [append, get?, size]

end ProcedureTable

end Diglot
