import Diglot.Lowering.Emission

/-! # Literals

A literal pushes its value; a string literal pushes its characters and makes a string of them. A
literal that cannot be read is reported, and a value of its kind takes its place.
-/

set_option autoImplicit false

namespace Diglot.Lowering

/-- The type of a literal. -/
def literalPrimitive : LiteralKind → Primitive
  | .int => .int
  | .double => .double
  | .bool => .bool
  | .char => .char
  | .string => .string
  | .null => .null

/-- The type that a literal takes where another one is expected. -/
def literalType (o : Options) (literal : Primitive) (expected : Ty) : Ty :=
  if !o.enforceTypeCheck || outranks (some literal.uid) expected.uid then .primitive literal
  else { expected with rank := 0 }

/-- A value together with what there is to report about it. -/
structure Reading where
  operand : Operand
  fault : Option (Issue × String) := none

/-- Reads an integer literal. -/
def readInt (source : String) : Reading :=
  match Numeral.read source.toList with
  | .ok v => { operand := .int v }
  | .error f =>
    let issue := match f with
      | .overflow => Issue.integerOverflow
      | .malformed => Issue.invalidNumber
    { operand := .int 0
      fault := some (issue, "Integer literal '" ++ source ++ "' cannot be represented.") }

/-- Reads a floating-point literal. -/
def readDouble (source : String) : Reading :=
  match Binary.Double.read source.toList with
  | some v => { operand := .double v }
  | none =>
    { operand := .double (.zero false)
      fault := some (.invalidNumber, "Malformed floating-point literal '" ++ source ++ "'.") }

/-- Reads a boolean literal. -/
def readBool (source : String) : Reading :=
  if source = "true" then { operand := .bool true }
  else if source = "false" then { operand := .bool false }
  else
    { operand := .bool false
      fault := some (.invalidNumber, "Malformed boolean literal '" ++ source ++ "'.") }

/-- Reads a character literal. -/
def readChar (source : String) : Reading :=
  match source.toList with
  | [] => { operand := .char '\x00', fault := some (.emptyCharLiteral, "Empty character literal.") }
  | [c] => { operand := .char c }
  | c :: _ =>
    { operand := .char c
      fault := some (.charLiteralTooLong, "Character literal '" ++ source ++ "' is too long.") }

/-- Reads a literal that has a single value; a string has none. -/
def readLiteral? (kind : LiteralKind) (source : String) : Option Reading :=
  match kind with
  | .int => some (readInt source)
  | .double => some (readDouble source)
  | .bool => some (readBool source)
  | .char => some (readChar source)
  | .null => some { operand := .null }
  | .string => none

/-- The operand of a literal that has a single value. -/
def literalOperand (kind : LiteralKind) (source : String) (span : Span) : Lower Operand := do
  match readLiteral? kind source with
  | none => defect .stringOperand
  | some r =>
    match r.fault with
    | some (issue, message) => report issue message span
    | none => pure ()
    return r.operand

/-- Pushes the characters of a string literal and makes a string of them. -/
def lowerString (source : String) (span : Span) : Lower Unit := do
  source.toList.forM fun c => do
    let _ ← emitPush (.char c) 0 span
  let _ ← emitAlloca source.toList.length true

/-- The arguments that are being lowered carry replication guides. -/
def guidesWanted : Lower Bool := do
  return (← read).isGuided && (← getSession).options.replicationGuides

/-- Lowers a literal where a type is expected. -/
def lowerLiteral (kind : LiteralKind) (source : String) (span : Span) (expected : Ty) :
    Lower Ty := do
  let options := (← getSession).options
  let type := if kind = .null then Ty.null else literalType options (literalPrimitive kind) expected
  if ← guidesWanted then
    let _ ← emitPushIndex (.guideCount 0)
  match kind with
  | .string => lowerString source span
  | _ =>
    let operand ← literalOperand kind source span
    let _ ← emitPush operand 0 span
  return type

end Diglot.Lowering
