/-! # Source spans

A `Span` names a stretch of source text by the line and column of its first and last character.
Lines and columns count from one, so a span whose first line or column is zero points nowhere.

- `Span.join` is the least span that covers two others; a span that points nowhere adds nothing.
- `Span.text` and `Span.record` are its two written forms.
-/

set_option autoImplicit false

namespace Diglot

/-- A stretch of source text, from its first character to its last. -/
structure Span where
  line : Nat
  column : Nat
  endLine : Nat
  endColumn : Nat
  deriving DecidableEq, Inhabited

namespace Span

/-- The span that points nowhere. -/
def nil : Span := ⟨0, 0, 0, 0⟩

/-- The span of a single character. -/
def point (line column : Nat) : Span := ⟨line, column, line, column⟩

/-- A span points somewhere when its first line and column are both counted from one. -/
def isValid (s : Span) : Bool := decide (0 < s.line) && decide (0 < s.column)

/-- All four numbers are zero. -/
def isNil (s : Span) : Bool := s == nil

/-- Position `(l, c)` comes before `(l', c')` in reading order. -/
def before (l c l' c' : Nat) : Bool := decide (l < l') || (l == l' && decide (c < c'))

/-- The least span that covers both; a span that points nowhere gives way to the other one. -/
def join (a b : Span) : Span :=
  if !a.isValid then b
  else if !b.isValid then a
  else
    let first := if before b.line b.column a.line a.column then b else a
    let last := if before a.endLine a.endColumn b.endLine b.endColumn then b else a
    ⟨first.line, first.column, last.endLine, last.endColumn⟩

/-- Reading order on the first position, then on the last. -/
def compare (a b : Span) : Ordering :=
  (Ord.compare a.line b.line).then <|
  (Ord.compare a.column b.column).then <|
  (Ord.compare a.endLine b.endLine).then <|
  Ord.compare a.endColumn b.endColumn

/-- The short form `line:column..line:column`, and `?` for a span that points nowhere. -/
def text (s : Span) : String :=
  if s.isValid then
    toString s.line ++ ":" ++ toString s.column ++ ".." ++
      toString s.endLine ++ ":" ++ toString s.endColumn
  else "?"

/-- The long form, field by field, as log records carry it. -/
def record (s : Span) : String :=
  "SourceSpan \x7b line: " ++ toString s.line ++ ", column: " ++ toString s.column ++
    ", end_line: " ++ toString s.endLine ++ ", end_column: " ++ toString s.endColumn ++ " \x7d"

@[simp] theorem isValid_nil : nil.isValid = false := rfl

theorem join_of_not_isValid_left {a b : Span} (h : a.isValid = false) : a.join b = b := by
  simp [join, h]

theorem join_of_not_isValid_right {a b : Span} (ha : a.isValid = true) (hb : b.isValid = false) :
    a.join b = a := by
  simp [join, ha, hb]

end Span

end Diglot
