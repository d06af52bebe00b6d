import Diglot.Binary.Double
import Diglot.Symbol
import Diglot.Text.Hidden

/-! # Operands

What an instruction works on: constants, variables by their position in a table, labels, registers
and indices into the tables of the program. A label that has not been patched yet has no target.
-/

set_option autoImplicit false

namespace Diglot

/-- The registers of the machine. -/
inductive Register where
  | ax | bx | cx | dx | lx | rx
  deriving DecidableEq, Inhabited

/-- The register in a listing. -/
def Register.text : Register → String
  | ax => "_ax"
  | bx => "_bx"
  | cx => "_cx"
  | dx => "_dx"
  | lx => "_lx"
  | rx => "_rx"

/-- An operand of an instruction. -/
inductive Operand where
  | int (value : Int)
  | double (value : Binary.Double)
  | bool (value : Bool)
  | char (value : Char)
  | stringPointer (index : Nat)
  | null
  /-- A variable, by its position in the table of its block. -/
  | var (index : Nat)
  /-- A member variable, by its position in the table of its class. -/
  | memVar (index : Nat)
  /-- A static member variable. -/
  | staticVar (index : Nat)
  | cls (index : Option Nat)
  | function (index : Option Nat)
  | block (id : Nat)
  /-- A place in the code, if it is known already. -/
  | label (target : Option Nat)
  | arrayDim (count : Nat)
  | guideCount (count : Nat)
  | register (name : Register)
  /-- An entry of one of the tables of late-bound names. -/
  | dynamic (index : Nat)
  | this
  | pointer (index : Nat)
  | arrayPointer (index : Nat)
  | staticType (type : Ty)
  | defaultArg
  deriving DecidableEq, Inhabited

namespace Operand

/-- The operand in a listing. -/
def text : Operand → String
  | int v => toString v
  | double v => v.text
  | bool v => if v then "true" else "false"
  | char c => Text.quotedChar c
  | stringPointer n => "str[" ++ toString n ++ "]"
  | null => "null"
  | var i => "var" ++ toString i
  | memVar i => "mem" ++ toString i
  | staticVar i => "static" ++ toString i
  | cls none => "class_global"
  | cls (some i) => "class" ++ toString i
  | function none => "fn_global"
  | function (some i) => "fn" ++ toString i
  | block i => "block" ++ toString i
  | label none => "L?"
  | label (some pc) => "L" ++ toString pc
  | arrayDim n => toString n ++ "[dim]"
  | guideCount n => toString n ++ "[guide]"
  | register r => r.text
  | dynamic i => "dyn" ++ toString i
  | this => "this"
  | pointer i => "ptr" ++ toString i
  | arrayPointer i => "arrptr" ++ toString i
  | staticType t => "type" ++ toString (t.uid.getD absentIndex) ++ "[" ++ toString t.rank ++ "]"
  | defaultArg => "default"

/-- An index as a signed number; greater indices count as the greatest. -/
def clamp (i : Nat) : Int := min (i : Int) Numeral.maxInt

/-- The operand as a signed number. -/
def payload : Operand → Int
  | int v => v
  | double v => v.truncate.getD 0
  | bool v => if v then 1 else 0
  | char c => c.toNat
  | stringPointer i | var i | memVar i | staticVar i | block i | arrayDim i | guideCount i
  | dynamic i | pointer i | arrayPointer i => clamp i
  | cls (some i) | function (some i) => clamp i
  | cls none | function none => -1
  | label none => -1
  | label (some pc) => clamp pc
  | staticType t =>
    match t.uid with
    | some uid => if (uid : Int) ≤ Numeral.maxInt then uid else -1
    | none => -1
  | null | register _ | this | defaultArg => 0

/-- The operand as a floating-point number. -/
def payloadDouble : Operand → Binary.Double
  | double v => v
  | other => .ofInt other.payload

/-- The operand is a place in the code. -/
def isLabel : Operand → Bool
  | label _ => true
  | _ => false

/-- The operand is a place in the code that is not known yet. -/
def isPending : Operand → Bool
  | label none => true
  | _ => false

/-- The operand is a constant. -/
def isLiteral : Operand → Bool
  | int _ | double _ | bool _ | char _ | null => true
  | _ => false

/-- The operand that addresses a symbol: by its position, and by whether it is a member. -/
def ofSymbol (s : Symbol) : Operand :=
  if s.isMember then if s.isStatic then .staticVar s.position else .memVar s.position
  else .var s.position

end Operand

end Diglot
