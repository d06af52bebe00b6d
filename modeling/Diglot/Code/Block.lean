import Diglot.Code.Instruction
import Diglot.Graph.Node

/-! # Code blocks

A `Block` holds the code of a unit, of the body of a procedure, or of a language block nested in
another block, together with the variables declared there. Blocks form a tree, along which names are
looked up.
-/

set_option autoImplicit false

namespace Diglot

/-- What a block holds: a unit, the body of a procedure, or a nested language block. -/
inductive BlockKind where
  | global | function | language
  deriving DecidableEq, Inhabited

/-- The name of the kind. -/
def BlockKind.name : BlockKind → String
  | global => "Global"
  | function => "Function"
  | language => "Language"

/-- A stretch of code with its variables. -/
structure Block where
  id : Nat
  kind : BlockKind
  dialect : Dialect
  parent : Option Nat
  children : Array Nat := #[]
  symbols : SymbolTable := {}
  code : Array Instruction := #[]
  graph : Array GraphNode := #[]
  /-- The procedure whose code the block holds. -/
  procedure : Option ProcRef := none
  /-- Where the code begins, once there is any. -/
  entry : Option Nat := none
  deriving DecidableEq, Inhabited

end Diglot
