/-! # Types

A type is the index of a class, where the first twelve classes are the primitives, and a rank: the
number of array dimensions, negative if it is arbitrary. A type whose class could not be determined
has none.

- `Ty.subscripted` is the type of an element.
- `outranks` is the order in which literal types give way to expected ones.
-/

set_option autoImplicit false

namespace Diglot

/-- The primitive types, in the order of their class indices. -/
inductive Primitive where
  | double | int | bool | char | string | var | void | null | array | pointer | functionPointer
  | returnReserved
  deriving DecidableEq, Inhabited

namespace Primitive

/-- All primitives in the order of their class indices. -/
def all : List Primitive :=
  [double, int, bool, char, string, var, void, null, array, pointer, functionPointer,
    returnReserved]

/-- The class index of a primitive. -/
def uid : Primitive → Nat
  | double => 0
  | int => 1
  | bool => 2
  | char => 3
  | string => 4
  | var => 5
  | void => 6
  | null => 7
  | array => 8
  | pointer => 9
  | functionPointer => 10
  | returnReserved => 11

/-- The name of a primitive in source text. -/
def name : Primitive → String
  | double => "double"
  | int => "int"
  | bool => "bool"
  | char => "char"
  | string => "string"
  | var => "var"
  | void => "void"
  | null => "null"
  | array => "array"
  | pointer => "pointer"
  | functionPointer => "function_pointer"
  | returnReserved => "return_reserved"

/-- The primitive with the given class index. -/
def ofUid? (uid : Nat) : Option Primitive := all[uid]?

/-- The number of primitives; greater class indices belong to declared classes. -/
def count : Nat := 12

@[simp] theorem length_all : all.length = count := rfl

@[simp] theorem ofUid?_uid (p : Primitive) : ofUid? p.uid = some p := by cases p <;> rfl

end Primitive

/-- The number that written forms show where there is no index. -/
def absentIndex : Nat := 18446744073709551615

/-- A class and a rank. -/
structure Ty where
  uid : Option Nat
  rank : Int
  deriving DecidableEq

namespace Ty

/-- A single value of a primitive. -/
def primitive (p : Primitive) : Ty := ⟨some p.uid, 0⟩

/-- A single value of a class. -/
def scalar (uid : Nat) : Ty := ⟨some uid, 0⟩

/-- The type of a value about which nothing is known. -/
def var : Ty := primitive .var

/-- The type of the null value. -/
def null : Ty := primitive .null

/-- A type that could not be determined. -/
def unknown : Ty := ⟨none, 0⟩

instance : Inhabited Ty := ⟨var⟩

/-- The class is the given primitive, whatever the rank. -/
def is (t : Ty) (p : Primitive) : Bool := t.uid == some p.uid

/-- The type has a rank. -/
def isArray (t : Ty) : Bool := t.rank != 0

/-- The class is a declared one. -/
def isClass (t : Ty) : Bool :=
  match t.uid with
  | some uid => decide (Primitive.count ≤ uid)
  | none => false

/-- The type of what is found behind `dims` subscripts. An arbitrary rank stays arbitrary. -/
def subscripted (t : Ty) (dims : Nat) : Ty :=
  if t.rank < 0 then t else { t with rank := max (t.rank - dims) 0 }

/-- The name of the class, or a place holder. -/
def className (t : Ty) : String :=
  match t.uid with
  | none => "?"
  | some uid =>
    match Primitive.ofUid? uid with
    | some p => p.name
    | none => "class#" ++ toString uid

/-- The class followed by a pair of brackets for each dimension. -/
def text (t : Ty) : String :=
  if t.rank < 0 then t.className ++ "[]..[]"
  else String.join (t.className :: List.replicate t.rank.toNat "[]")

end Ty

/-- A literal of the first type keeps it where the second is expected: primitives by the order of
their indices, and everything against a declared or unknown class. -/
def outranks (a b : Option Nat) : Bool :=
  match a, b with
  | some a, some b =>
    decide (Primitive.count ≤ a) || decide (Primitive.count ≤ b) || decide (a ≤ b)
  | _, _ => true

end Diglot
