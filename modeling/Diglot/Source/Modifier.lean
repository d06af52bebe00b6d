/-! # Dialects and modifiers

The two dialects a block may be written in, and the modifiers a declaration may carry: who may use
a member, and where a variable lives.
-/

set_option autoImplicit false

namespace Diglot

/-- An associative block re-runs statements whose inputs change; an imperative one runs in order. -/
inductive Dialect where
  | associative | imperative
  deriving DecidableEq, Inhabited

/-- The dialect's name. -/
def Dialect.name : Dialect → String
  | associative => "Associative"
  | imperative => "Imperative"

/-- The letter that marks the dialect's instructions in a listing. -/
def Dialect.letter : Dialect → Char
  | associative => 'a'
  | imperative => 'i'

/-- Who may use a member: everyone, the class and its descendants, or the class alone. -/
inductive Access where
  | isPublic | isProtected | isPrivate
  deriving DecidableEq, Inhabited

/-- The modifier as written in source text. -/
def Access.keyword : Access → String
  | isPublic => "public"
  | isProtected => "protected"
  | isPrivate => "private"

/-- Where a variable lives. A variable on the heap is reached through a box. -/
inductive Region where
  | stack | heap | static
  deriving DecidableEq, Inhabited

/-- The region's name. -/
def Region.name : Region → String
  | stack => "Stack"
  | heap => "Heap"
  | static => "Static"

end Diglot
