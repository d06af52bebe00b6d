import Diglot.Code.Operand
import Diglot.Source.Operator
import Diglot.Source.Span

/-! # Instructions

An instruction is an opcode with up to three operands. If the session asks for it, the instruction
also knows its place in the source and the places where a stepping debugger may stop next.

- `Instruction.jumpTarget?` is the operand through which a jump leaves.
- `Instruction.retarget` replaces it.
-/

set_option autoImplicit false

namespace Diglot

/-- The operations of the machine. -/
inductive OpCode where
  | alloc | alloca | bounce | call | callr | cjmp | depx
  | jmp | jz | jgz | jlz | jmpLtEq | jmpGtEq | jmpLt
  | mov
  | pop | popb | popg | poplist | popm | popw
  | push | pushb | pushg | pushindex | pushlist | pushm | pushw
  | range | ret | retb | retcn | throw
  | add | sub | mul | div | mod
  | eq | nq | gt | lt | ge | le
  | and | or | bitAnd | bitOr | bitXor
  | not | neg | bitNot
  deriving DecidableEq, Inhabited

namespace OpCode

/-- The opcode in a listing. -/
def mnemonic : OpCode → String
  | alloc => "alloc"
  | alloca => "alloca"
  | bounce => "bounce"
  | call => "call"
  | callr => "callr"
  | cjmp => "cjmp"
  | depx => "depx"
  | jmp => "jmp"
  | jz => "jz"
  | jgz => "jgz"
  | jlz => "jlz"
  | jmpLtEq => "jmp_lteq"
  | jmpGtEq => "jmp_gteq"
  | jmpLt => "jmp_lt"
  | mov => "mov"
  | pop => "pop"
  | popb => "popb"
  | popg => "popg"
  | poplist => "poplist"
  | popm => "popm"
  | popw => "popw"
  | push => "push"
  | pushb => "pushb"
  | pushg => "pushg"
  | pushindex => "pushindex"
  | pushlist => "pushlist"
  | pushm => "pushm"
  | pushw => "pushw"
  | range => "range"
  | ret => "ret"
  | retb => "retb"
  | retcn => "retcn"
  | throw => "throw"
  | add => "add"
  | sub => "sub"
  | mul => "mul"
  | div => "div"
  | mod => "mod"
  | eq => "eq"
  | nq => "nq"
  | gt => "gt"
  | lt => "lt"
  | ge => "ge"
  | le => "le"
  | and => "and"
  | or => "or"
  | bitAnd => "bitand"
  | bitOr => "bitor"
  | bitXor => "bitxor"
  | not => "not"
  | neg => "neg"
  | bitNot => "bitnot"

/-- The opcode of a binary operator. A dot computes nothing and has none. -/
def ofBinary? : Operator → Option OpCode
  | .dot => none
  | .add => some add
  | .sub => some sub
  | .mul => some mul
  | .div => some div
  | .mod => some mod
  | .eq => some eq
  | .nq => some nq
  | .gt => some gt
  | .lt => some lt
  | .ge => some ge
  | .le => some le
  | .and => some and
  | .or => some or
  | .bitAnd => some bitAnd
  | .bitOr => some bitOr
  | .bitXor => some bitXor

/-- The opcode of a unary operator. -/
def ofUnary : UnaryOperator → OpCode
  | .neg => neg
  | .not => not
  | .bitNot => bitNot

/-- The operand, counted from one, that holds the target of a jump. -/
def targetSlot? : OpCode → Option Nat
  | jmp => some 1
  | jz | jgz | jlz => some 2
  | cjmp | jmpLtEq | jmpGtEq | jmpLt => some 3
  | _ => none

/-- The opcode may continue elsewhere than at the next instruction. -/
def isJump (op : OpCode) : Bool := op.targetSlot?.isSome

end OpCode

/-- A place in the source, and the places in the code where a stepping debugger may stop next. A
place that is not known yet is missing. -/
structure DebugRecord where
  span : Span
  nextSteps : List (Option Nat)
  deriving DecidableEq, Inhabited

/-- An opcode with its operands. -/
structure Instruction where
  opcode : OpCode
  op1 : Option Operand := none
  op2 : Option Operand := none
  op3 : Option Operand := none
  debug : Option DebugRecord := none
  deriving DecidableEq, Inhabited

namespace Instruction

/-- An instruction without operands. -/
def bare (opcode : OpCode) : Instruction := { opcode }

/-- An instruction with one operand. -/
def unary (opcode : OpCode) (a : Operand) : Instruction := { opcode, op1 := some a }

/-- An instruction with two operands. -/
def binary (opcode : OpCode) (a b : Operand) : Instruction := { opcode, op1 := some a, op2 := some b }

/-- An instruction with three operands. -/
def ternary (opcode : OpCode) (a b c : Operand) : Instruction :=
  { opcode, op1 := some a, op2 := some b, op3 := some c }

/-- The operands that are there. -/
def operands (i : Instruction) : List Operand :=
  i.op1.toList ++ i.op2.toList ++ i.op3.toList

/-- The instruction in a listing. -/
def text (i : Instruction) : String :=
  match i.operands with
  | [] => i.opcode.mnemonic
  | ops => i.opcode.mnemonic ++ " " ++ String.intercalate ", " (ops.map Operand.text)

/-- The operand through which a jump leaves. -/
def jumpTarget? (i : Instruction) : Option Operand :=
  match i.opcode.targetSlot? with
  | some 1 => i.op1
  | some 2 => i.op2
  | some 3 => i.op3
  | _ => none

/-- The jump with another target. -/
def retarget (i : Instruction) (target : Operand) : Instruction :=
  match i.opcode.targetSlot? with
  | some 1 => { i with op1 := some target }
  | some 2 => { i with op2 := some target }
  | some 3 => { i with op3 := some target }
  | _ => i

end Instruction

end Diglot
