import Diglot.Issue
import Diglot.Source.Span

/-! # Diagnostics

A `Diagnostic` is an issue at a place of a file, with a message of its own. Diagnostics are kept in
the order in which they were reported.
-/

set_option autoImplicit false

namespace Diglot

/-- A reported issue. -/
structure Diagnostic where
  issue : Issue
  message : String
  file : Option String
  line : Nat
  column : Nat
  deriving DecidableEq, Inhabited

namespace Diagnostic

/-- What the issue is about. -/
def kind (d : Diagnostic) : IssueKind := d.issue.kind

/-- How grave the issue is. -/
def severity (d : Diagnostic) : Severity := d.issue.severity

/-- Kind, number, file, place and message. A place that points nowhere is left out. -/
def text (d : Diagnostic) : String :=
  let file :=
    match d.file with
    | some f => " " ++ f
    | none => ""
  let place :=
    if 0 < d.line ∧ 0 < d.column then " " ++ toString d.line ++ ":" ++ toString d.column else ""
  d.kind.text ++ "[" ++ toString d.issue.number ++ "]" ++ file ++ place ++ ": " ++ d.message

end Diagnostic

/-- Diagnostics in the order in which they were reported. -/
abbrev Diagnostics := Array Diagnostic

namespace Diagnostics

/-- The number of diagnostics whose severity the mask selects. -/
def countSeverity (ds : Diagnostics) (mask : Nat) : Nat :=
  (ds.toList.filter fun d => d.severity.bit &&& mask != 0).length

/-- The number of diagnostics of an issue. -/
def countIssue (ds : Diagnostics) (issue : Issue) : Nat :=
  (ds.toList.filter fun d => d.issue == issue).length

/-- The issue was reported. -/
def hasIssue (ds : Diagnostics) (issue : Issue) : Bool := ds.any fun d => d.issue == issue

/-- The diagnostics of a kind. -/
def ofKind (ds : Diagnostics) (kind : IssueKind) : List Diagnostic :=
  ds.toList.filter fun d => d.kind == kind

end Diagnostics

end Diglot
