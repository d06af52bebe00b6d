/-! # Operators

The operators of the language, their written symbols, and which binary operators yield a boolean.
-/

set_option autoImplicit false

namespace Diglot

/-- What may stand between two operands. `dot` joins the segments of a chain and computes nothing. -/
inductive Operator where
  | dot | add | sub | mul | div | mod
  | eq | nq | gt | lt | ge | le
  | and | or | bitAnd | bitOr | bitXor
  deriving DecidableEq, Inhabited

namespace Operator

/-- The operator as written in source text. -/
def symbol : Operator → String
  | dot => "."
  | add => "+"
  | sub => "-"
  | mul => "*"
  | div => "/"
  | mod => "%"
  | eq => "=="
  | nq => "!="
  | gt => ">"
  | lt => "<"
  | ge => ">="
  | le => "<="
  | and => "&&"
  | or => "||"
  | bitAnd => "&"
  | bitOr => "|"
  | bitXor => "^"

/-- Comparisons and logical connectives yield a boolean whatever their operands are. -/
def isBoolean : Operator → Bool
  | eq | nq | gt | lt | ge | le | and | or => true
  | _ => false

end Operator

/-- What may stand before a single operand. -/
inductive UnaryOperator where
  | neg | not | bitNot
  deriving DecidableEq, Inhabited

/-- The unary operator as written in source text. -/
def UnaryOperator.symbol : UnaryOperator → String
  | neg => "-"
  | not => "!"
  | bitNot => "~"

end Diglot
