import Diglot.Procedure
import Diglot.Symbol

/-! # Classes

A `ClassTable` holds the primitives and, behind them, the declared classes. A class has at most one
base class; its members and those of its base classes are looked up from the nearest class to the
farthest.

- `ClassTable.lineage` lists a class and its base classes.
- `ClassTable.lookupMember` and `ClassTable.lookupProcedure` find a member that the context may use,
  and tell a hidden one from a missing one.
-/

set_option autoImplicit false

namespace Diglot

/-- A class with its member variables and procedures. -/
structure Class where
  name : String
  base : Option Nat := none
  symbols : SymbolTable := {}
  procedures : ProcedureTable := {}
  isPrimitive : Bool := false
  attributes : List Attribute := []
  deriving Inhabited

/-- A member by the class that declares it and its position there. -/
structure MemberRef where
  owner : Nat
  index : Nat
  deriving DecidableEq, Inhabited

/-- What a lookup along the base classes finds: nothing, a member that may be used, or only members
that may not. -/
inductive MemberLookup where
  | missing
  | found (member : MemberRef)
  | inaccessible (member : MemberRef)
  deriving DecidableEq, Inhabited

namespace MemberLookup

/-- Some class declares the member. -/
def exists? : MemberLookup → Bool
  | missing => false
  | _ => true

/-- The member, if it may be used. -/
def found? : MemberLookup → Option MemberRef
  | found m => some m
  | _ => none

end MemberLookup

/-- All classes by their index. -/
structure ClassTable where
  classes : Array Class
  deriving Inhabited

namespace ClassTable

/-- The table of the primitives. -/
def primitives : ClassTable :=
  ⟨(Primitive.all.map fun p => { name := p.name, isPrimitive := true : Class }).toArray⟩

/-- The class of an index. -/
def get? (t : ClassTable) (i : Nat) : Option Class := t.classes[i]?

/-- The number of classes, primitives included. -/
def size (t : ClassTable) : Nat := t.classes.size

/-- The index of the class of a name. -/
def indexOf? (t : ClassTable) (name : String) : Option Nat :=
  t.classes.toList.findIdx? fun c => c.name == name

/-- Adds a class unless its name is taken. -/
def append? (t : ClassTable) (c : Class) : Option ClassTable :=
  if (t.indexOf? c.name).isSome then none else some ⟨t.classes.push c⟩

/-- Changes the class of an index. -/
def modify (t : ClassTable) (i : Nat) (f : Class → Class) : ClassTable := ⟨t.classes.modify i f⟩

/-- Adds a member to a class. -/
def appendSymbol (t : ClassTable) (i : Nat) (s : Symbol) : ClassTable :=
  t.modify i fun c => { c with symbols := c.symbols.append s }

/-- Adds a procedure to a class, whose index it learns. -/
def appendProcedure (t : ClassTable) (i : Nat) (p : Procedure) : ClassTable :=
  t.modify i fun c => { c with procedures := c.procedures.append { p with classScope := some i } }

/-- The procedure of a class. -/
def procedure? (t : ClassTable) (r : ProcRef) : Option Procedure := do
  (← t.get? (← r.classScope)).procedures.get? r.index

/-! ## Inheritance -/

/-- At most `fuel` steps from a class towards its farthest base class. -/
def lineageFrom (t : ClassTable) : Nat → Nat → List Nat
  | 0, _ => []
  | fuel + 1, i =>
    match (t.get? i).bind Class.base with
    | some base => i :: t.lineageFrom fuel base
    | none => [i]

/-- A class and its base classes, nearest first. Base classes without a cycle are fewer than the
classes of the table. -/
def lineage (t : ClassTable) (i : Nat) : List Nat := t.lineageFrom (t.size + 1) i

/-- The first class is the second or derives from it. -/
def isDerived (t : ClassTable) (derived base : Nat) : Bool := (t.lineage derived).contains base

/-- Types between which numbers convert. -/
def isNumeric (uid : Option Nat) : Bool :=
  uid == some Primitive.int.uid || uid == some Primitive.double.uid ||
    uid == some Primitive.bool.uid

/-- A value of the first type may stand where the second is expected. -/
def isConvertible (t : ClassTable) (source target : Option Nat) : Bool :=
  source == target || target == some Primitive.var.uid || source == some Primitive.null.uid ||
    (isNumeric source && isNumeric target) ||
    match source, target with
    | some s, some b => t.isDerived s b
    | _, _ => false

/-- Code in the scope of class `context` may use a member of class `owner`. -/
def isAccessible (t : ClassTable) (owner : Nat) (access : Access) (context : Option Nat) : Bool :=
  match access with
  | .isPublic => true
  | .isPrivate => context == some owner
  | .isProtected =>
    match context with
    | some c => t.isDerived c owner
    | none => false

/-! ## Members -/

/-- Walks along classes, each of which may declare the member with some access. The first one that
may be used is found; otherwise the first one at all is remembered as hidden. -/
def searchMember (t : ClassTable) (context : Option Nat)
    (declared : Class → Option (Nat × Access)) : Option MemberRef → List Nat → MemberLookup
  | some hidden, [] => .inaccessible hidden
  | none, [] => .missing
  | hidden, owner :: rest =>
    match (t.get? owner).bind declared with
    | some (index, access) =>
      if t.isAccessible owner access context then .found ⟨owner, index⟩
      else t.searchMember context declared (hidden.orElse fun _ => some ⟨owner, index⟩) rest
    | none => t.searchMember context declared hidden rest

/-- The member variable of a name that a class declares itself. -/
def declaredSymbol (name : String) (c : Class) : Option (Nat × Access) :=
  (c.symbols.indexInFunction? name none).map fun i =>
    (i, ((c.symbols.get? i).map Symbol.access).getD .isPublic)

/-- The procedure that a class declares itself for a name and a number of arguments. -/
def declaredProcedure (name : String) (arity : Nat) (c : Class) : Option (Nat × Access) :=
  (c.procedures.find? name arity).map fun i =>
    (i, ((c.procedures.get? i).map Procedure.access).getD .isPublic)

/-- Looks a member variable up along the base classes. -/
def lookupMember (t : ClassTable) (i : Nat) (name : String) (context : Option Nat) :
    MemberLookup :=
  t.searchMember context (declaredSymbol name) none (t.lineage i)

/-- Looks a procedure up along the base classes. -/
def lookupProcedure (t : ClassTable) (i : Nat) (name : String) (arity : Nat)
    (context : Option Nat) : MemberLookup :=
  t.searchMember context (declaredProcedure name arity) none (t.lineage i)

/-- The nearest member variable of a name, whoever may use it. -/
def anyMember? (t : ClassTable) (i : Nat) (name : String) : Option MemberRef :=
  (t.lineage i).findSome? fun owner =>
    ((t.get? owner).bind (declaredSymbol name)).map fun d => ⟨owner, d.1⟩

/-- The nearest static procedure of a name. -/
def staticProcedure? (t : ClassTable) (i : Nat) (name : String) : Option ProcRef :=
  (t.lineage i).findSome? fun owner =>
    ((t.get? owner).bind fun c => c.procedures.findStatic? name).map fun p => ⟨some owner, p⟩

end ClassTable

end Diglot
