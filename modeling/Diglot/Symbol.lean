import Diglot.Source.Modifier
import Diglot.Types

/-! # Symbols

A `Symbol` is a declared variable. A `SymbolTable` holds the symbols of one block or class in the
order of their declaration, and an index from names to positions that `append` keeps up to date.

- `SymbolTable.indicesOf` lists the positions of a name.
- `SymbolTable.indexOf?` and `SymbolTable.indexInFunction?` find the first one in a given scope.
-/

set_option autoImplicit false

namespace Diglot

/-- A declared variable, parameter or member. -/
structure Symbol where
  name : String
  type : Ty
  /-- Where the variable lives. -/
  region : Region := .stack
  /-- The class in whose scope the symbol was declared. -/
  classScope : Option Nat := none
  /-- The index of the procedure in whose scope the symbol was declared. -/
  function : Option Nat := none
  /-- The place of the variable among those of its scope; negative for locals. -/
  offset : Int := 0
  /-- The box of a variable on the heap. -/
  heapIndex : Option Nat := none
  /-- How many places the variable takes. -/
  size : Nat := 1
  isStatic : Bool := false
  access : Access := .isPublic
  /-- The block whose code declared the symbol. -/
  block : Nat := 0
  /-- The position of the symbol in its table. -/
  position : Nat := 0
  /-- The library that an imported symbol comes from. -/
  library : Option String := none
  isParameter : Bool := false
  deriving DecidableEq, Inhabited

namespace Symbol

/-- Declared in a class and in no procedure. -/
def isMember (s : Symbol) : Bool := s.classScope.isSome && s.function.isNone

/-- Made up by the compiler. -/
def isTemporary (s : Symbol) : Bool := s.name.toList.head? == some '%'

end Symbol

/-- The table that a symbol stands in. -/
inductive Owner where
  | block (id : Nat)
  | cls (id : Nat)
  deriving DecidableEq, Inhabited

/-- A symbol by its table and position. -/
structure SymbolRef where
  owner : Owner
  index : Nat
  deriving DecidableEq, Inhabited

/-- Symbols in the order of declaration, and the positions of each name. -/
structure SymbolTable where
  symbols : Array Symbol := #[]
  byName : List (String × List Nat) := []
  deriving DecidableEq, Inhabited

namespace SymbolTable

/-- Adds a position behind the others of its name. -/
def insertName (name : String) (position : Nat) :
    List (String × List Nat) → List (String × List Nat)
  | [] => [(name, [position])]
  | (n, positions) :: rest =>
    if n = name then (n, positions ++ [position]) :: rest
    else (n, positions) :: insertName name position rest

/-- The positions of a name, in increasing order. -/
def indicesOf (t : SymbolTable) (name : String) : List Nat :=
  match t.byName.lookup name with
  | some positions => positions
  | none => []

/-- The symbol at a position. -/
def get? (t : SymbolTable) (i : Nat) : Option Symbol := t.symbols[i]?

/-- The number of symbols. -/
def size (t : SymbolTable) : Nat := t.symbols.size

/-- The table has no symbol. -/
def isEmpty (t : SymbolTable) : Bool := t.symbols.isEmpty

/-- Adds a symbol at the end, where it learns its position. -/
def append (t : SymbolTable) (s : Symbol) : SymbolTable :=
  { symbols := t.symbols.push { s with position := t.symbols.size }
    byName := insertName s.name t.symbols.size t.byName }

/-- Moves the symbol at a position into the scope of another procedure. -/
def setFunction (t : SymbolTable) (i : Nat) (function : Option Nat) : SymbolTable :=
  { t with symbols := t.symbols.modify i fun s => { s with function } }

/-- The first position of a name whose symbol satisfies a condition. -/
def findNamed? (t : SymbolTable) (name : String) (p : Symbol → Bool) : Option Nat :=
  (t.indicesOf name).find? fun i =>
    match t.get? i with
    | some s => p s
    | none => false

/-- The first position of a name in the scope of a class and a procedure. -/
def indexOf? (t : SymbolTable) (name : String) (classScope function : Option Nat) : Option Nat :=
  t.findNamed? name fun s => s.classScope == classScope && s.function == function

/-- The first position of a name in the scope of a procedure, or outside of procedures. -/
def indexInFunction? (t : SymbolTable) (name : String) (function : Option Nat) : Option Nat :=
  t.findNamed? name fun s => s.function == function

/-! ## What `append` does -/

@[simp] theorem size_append (t : SymbolTable) (s : Symbol) : (t.append s).size = t.size + 1 := by
  simp [append, size]

@[simp] theorem get?_append_size (t : SymbolTable) (s : Symbol) :
    (t.append s).get? t.size = some { s with position := t.size } := by
  simp [append, get?, size]

theorem get?_append_of_lt {t : SymbolTable} {i : Nat} (s : Symbol) (h : i < t.size) :
    (t.append s).get? i = t.get? i := by
  have hne : i ≠ t.symbols.size := Nat.ne_of_lt h
  simp [append, get?, Array.getElem?_push, hne]

theorem lookup_insertName (name key : String) (position : Nat) (l : List (String × List Nat)) :
    (insertName name position l).lookup key =
      if key = name then some ((l.lookup name).getD [] ++ [position]) else l.lookup key := by
  induction l with
  | nil => grind [insertName]
  | cons p rest ih => grind [insertName]

/-- A new symbol is listed last under its name, and no other name changes. -/
theorem indicesOf_append (t : SymbolTable) (s : Symbol) (name : String) :
    (t.append s).indicesOf name =
      if name = s.name then t.indicesOf name ++ [t.size] else t.indicesOf name := by
  by_cases h : name = s.name
  · subst h
    simp only [indicesOf, append, lookup_insertName, size]
    cases t.byName.lookup s.name <;> rfl
  · simp [indicesOf, append, lookup_insertName, h]

end SymbolTable

end Diglot
