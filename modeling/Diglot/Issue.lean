/-! # Issues

The faults that compilation can report. The number of an issue tells its kind, and the kind how
grave it is: a warning leaves a program that runs.
-/

set_option autoImplicit false

namespace Diglot

/-- A fault that compilation can report. -/
inductive Issue where
  | charLiteralTooLong
  | emptyCharLiteral
  | invalidIndirection
  | nonIdentifierSegment
  | integerOverflow
  | invalidNumber
  | unknownAttribute
  | nonConstantAttributeArgument
  | attributeArityMismatch
  | returnInConstructor
  | unknownType
  | imperativeConstructInAssociative
  | classOutsideAssociative
  | breakOutsideLoop
  | duplicateClass
  | invalidAssignmentTarget
  | unexpectedStatement
  | unboundIdentifier
  | propertyInaccessible
  | methodInaccessible
  | callingNonStaticOnClass
  | mismatchReturnType
  | functionNotFound
  deriving DecidableEq, Inhabited

/-- What an issue is about. -/
inductive IssueKind where
  | malformed | semantic | warning
  deriving DecidableEq, Inhabited

/-- How grave an issue is. -/
inductive Severity where
  | error | warning
  deriving DecidableEq, Inhabited

/-- The kind in messages. -/
def IssueKind.text : IssueKind → String
  | malformed => "syntax error"
  | semantic => "semantic error"
  | warning => "warning"

/-- The kind as a tag of the document. -/
def IssueKind.tag : IssueKind → String
  | malformed => "Syntax"
  | semantic => "Semantic"
  | warning => "Warning"

/-- The severity in messages. -/
def Severity.text : Severity → String
  | error => "error"
  | warning => "warning"

/-- The bit that selects a severity in a mask. -/
def Severity.bit : Severity → Nat
  | error => 1
  | warning => 2

namespace Issue

/-- All issues in the order of their numbers. -/
def all : List Issue :=
  [charLiteralTooLong, emptyCharLiteral, invalidIndirection, nonIdentifierSegment,
    integerOverflow, invalidNumber, unknownAttribute, nonConstantAttributeArgument,
    attributeArityMismatch, returnInConstructor, unknownType, imperativeConstructInAssociative,
    classOutsideAssociative, breakOutsideLoop, duplicateClass, invalidAssignmentTarget,
    unexpectedStatement, unboundIdentifier, propertyInaccessible, methodInaccessible,
    callingNonStaticOnClass, mismatchReturnType, functionNotFound]

/-- The number by which messages refer to the issue. -/
def number : Issue → Nat
  | charLiteralTooLong => 101
  | emptyCharLiteral => 102
  | invalidIndirection => 201
  | nonIdentifierSegment => 202
  | integerOverflow => 203
  | invalidNumber => 204
  | unknownAttribute => 205
  | nonConstantAttributeArgument => 206
  | attributeArityMismatch => 207
  | returnInConstructor => 208
  | unknownType => 209
  | imperativeConstructInAssociative => 210
  | classOutsideAssociative => 211
  | breakOutsideLoop => 212
  | duplicateClass => 213
  | invalidAssignmentTarget => 214
  | unexpectedStatement => 215
  | unboundIdentifier => 301
  | propertyInaccessible => 302
  | methodInaccessible => 303
  | callingNonStaticOnClass => 304
  | mismatchReturnType => 305
  | functionNotFound => 306

/-- The issue of a number. -/
def ofNumber? (n : Nat) : Option Issue := all.find? fun i => i.number == n

/-- The tag of the issue in the document. -/
def tag : Issue → String
  | charLiteralTooLong => "CharLiteralTooLong"
  | emptyCharLiteral => "EmptyCharLiteral"
  | invalidIndirection => "InvalidIndirection"
  | nonIdentifierSegment => "NonIdentifierSegment"
  | integerOverflow => "IntegerOverflow"
  | invalidNumber => "InvalidNumber"
  | unknownAttribute => "UnknownAttribute"
  | nonConstantAttributeArgument => "NonConstantAttributeArgument"
  | attributeArityMismatch => "AttributeArityMismatch"
  | returnInConstructor => "ReturnInConstructor"
  | unknownType => "UnknownType"
  | imperativeConstructInAssociative => "ImperativeConstructInAssociative"
  | classOutsideAssociative => "ClassOutsideAssociative"
  | breakOutsideLoop => "BreakOutsideLoop"
  | duplicateClass => "DuplicateClass"
  | invalidAssignmentTarget => "InvalidAssignmentTarget"
  | unexpectedStatement => "UnexpectedStatement"
  | unboundIdentifier => "UnboundIdentifier"
  | propertyInaccessible => "PropertyInaccessible"
  | methodInaccessible => "MethodInaccessible"
  | callingNonStaticOnClass => "CallingNonStaticOnClass"
  | mismatchReturnType => "MismatchReturnType"
  | functionNotFound => "FunctionNotFound"

/-- The issue in general words. -/
def text : Issue → String
  | charLiteralTooLong => "Character literal contains more than one character."
  | emptyCharLiteral => "Empty character literal."
  | invalidIndirection => "Only the '.' operator may join identifier list segments."
  | nonIdentifierSegment => "The left side of operator '.' must be an identifier."
  | integerOverflow => "Integer literal overflow."
  | invalidNumber => "Invalid numeric literal."
  | unknownAttribute => "Unknown attribute."
  | nonConstantAttributeArgument => "Attribute argument is not a constant."
  | attributeArityMismatch => "Attribute arity mismatch."
  | returnInConstructor => "Return statement inside a constructor."
  | unknownType => "Unknown type."
  | imperativeConstructInAssociative => "Imperative construct in associative block."
  | classOutsideAssociative => "Class declaration outside of the global block."
  | breakOutsideLoop => "Break outside of a loop."
  | duplicateClass => "Duplicate class declaration."
  | invalidAssignmentTarget => "Invalid assignment target."
  | unexpectedStatement => "Statement in expression position."
  | unboundIdentifier => "Unbound identifier."
  | propertyInaccessible => "Inaccessible property."
  | methodInaccessible => "Inaccessible method."
  | callingNonStaticOnClass => "Non-static member accessed through the class."
  | mismatchReturnType => "Return type mismatch."
  | functionNotFound => "Unresolved function."

/-- What the issue is about: the hundreds of its number. -/
def kind (i : Issue) : IssueKind :=
  match i.number / 100 with
  | 1 => .malformed
  | 2 => .semantic
  | _ => .warning

/-- Only warnings are less than errors. -/
def severity (i : Issue) : Severity :=
  match i.kind with
  | .warning => .warning
  | _ => .error

end Issue

end Diglot
