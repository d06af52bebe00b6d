import Diglot.Procedure
import Diglot.Symbol

/-! # Dependency nodes

Each statement of an associative block has a `GraphNode`: which instructions compute its value, what
the statement writes, and which paths the value was read from. A change of one of those paths makes
the machine run the statement again. A sealed node is part of the program and does not change.
-/

set_option autoImplicit false

/-! ## Paths

A `Path` is what a statement of an associative block reads or writes: the segments of a chain, from
its root on. A segment is a variable, a method or a literal subscript, and may itself carry literal
subscripts. Two paths are equal when their segments are, subscripts included.
-/

namespace Diglot

/-- What a segment of a path stands for. -/
inductive SegmentKind where
  | symbol | literal | method
  deriving DecidableEq, Inhabited

/-- A segment of a path. -/
structure Segment where
  kind : SegmentKind
  name : String
  /-- The symbol that the segment was resolved to. -/
  symbol : Option SymbolRef
  classScope : Option Nat
  dims : List Segment

namespace Segment

instance : Inhabited Segment := ⟨⟨.symbol, "", none, none, []⟩⟩

/-- A variable, member or class name. -/
def ofName (name : String) (symbol : Option SymbolRef) (classScope : Option Nat) : Segment :=
  ⟨.symbol, name, symbol, classScope, []⟩

/-- A called method. -/
def ofMethod (name : String) : Segment := ⟨.method, name, none, none, []⟩

/-- A subscript that is written as a literal. -/
def ofLiteral (source : String) : Segment := ⟨.literal, source, none, none, []⟩

/-- The segment without its subscripts. -/
def head (kind : SegmentKind) (name : String) : String :=
  match kind with
  | .symbol => name
  | .literal => "#" ++ name
  | .method => name ++ "()"

mutual

/-- The segment with its subscripts in brackets. -/
def text : Segment → String
  | ⟨kind, name, _, _, dims⟩ => head kind name ++ textDims dims

/-- Subscripts, each in brackets. -/
def textDims : List Segment → String
  | [] => ""
  | d :: rest => "[" ++ d.text ++ "]" ++ textDims rest

end

mutual

/-- Equality of segments is decided part by part. -/
def decEq : (a b : Segment) → Decidable (a = b)
  | ⟨k, n, s, c, d⟩, ⟨k', n', s', c', d'⟩ =>
    if h : k = k' ∧ n = n' ∧ s = s' ∧ c = c' then
      match decEqs d d' with
      | isTrue hd => isTrue (by rw [h.1, h.2.1, h.2.2.1, h.2.2.2, hd])
      | isFalse hd => isFalse (by intro e; injection e; contradiction)
    else isFalse (by
      intro e
      injection e with hk hn hs hc _
      exact h ⟨hk, hn, hs, hc⟩)

/-- Equality of lists of segments. -/
def decEqs : (a b : List Segment) → Decidable (a = b)
  | [], [] => isTrue rfl
  | [], _ :: _ => isFalse (by intro e; cases e)
  | _ :: _, [] => isFalse (by intro e; cases e)
  | a :: as, b :: bs =>
    match decEq a b, decEqs as bs with
    | isTrue h, isTrue hs => isTrue (by rw [h, hs])
    | isFalse h, _ => isFalse (by intro e; injection e; contradiction)
    | _, isFalse hs => isFalse (by intro e; injection e; contradiction)

end

instance : DecidableEq Segment := decEq

end Segment

/-- The segments of a chain, root first. -/
abbrev Path := List Segment

namespace Path

/-- The path with its segments joined by dots. -/
def text (p : Path) : String := String.intercalate "." (p.map Segment.text)

/-- The path begins at a variable of the given name. -/
def isRootedAt (p : Path) (name : String) : Bool :=
  match p with
  | root :: _ => root.name == name
  | [] => false

/-- The names of the path begin with the given ones. -/
def follows (p : Path) (names : List String) : Bool :=
  decide (names.length ≤ p.length) && ((p.zip names).all fun (s, name) => s.name == name)

end Path

end Diglot

/-! ## Nodes -/

namespace Diglot

/-- A statement of an associative block, as seen by whoever watches its inputs. -/
structure GraphNode where
  uid : Nat
  /-- The block whose code holds the statement. -/
  block : Nat
  procedure : Option ProcRef := none
  classScope : Option Nat := none
  /-- The first instruction that computes the value. -/
  startPc : Nat := 0
  /-- The last instruction that computes the value. -/
  endPc : Nat := 0
  /-- What the statement writes. -/
  updated : Option Path := none
  /-- What the value was read from. -/
  dependencies : List Path := []
  /-- The literal subscripts of the written variable. -/
  dims : List Segment := []
  /-- The statement writes an element of a variable. -/
  isIndexing : Bool := false
  /-- The statement was split off a longer chain. -/
  isTemporary : Bool := false
  /-- The dependency that was the first to be read through a call. -/
  firstCall : Option Nat := none
  isSealed : Bool := false
  deriving DecidableEq, Inhabited

namespace GraphNode

/-- Some input of the statement begins at a variable of the given name. -/
def dependsOn (n : GraphNode) (name : String) : Bool :=
  n.dependencies.any fun p => p.isRootedAt name

/-- Some input of the statement begins with the given names. -/
def dependsOnPath (n : GraphNode) (names : List String) : Bool :=
  n.dependencies.any fun p => p.follows names

/-- The path is an input that the node does not have yet. -/
def lacks (n : GraphNode) (p : Path) : Bool := !p.isEmpty && !n.dependencies.contains p

/-- Adds an input at the end. -/
def addDependency (n : GraphNode) (p : Path) : GraphNode :=
  { n with dependencies := n.dependencies ++ [p] }

/-- Remembers that the last input was read through a call. -/
def markFirstCall (n : GraphNode) : GraphNode :=
  { n with firstCall := if n.dependencies.isEmpty then none else some (n.dependencies.length - 1) }

/-- Adds a literal subscript to the written variable. -/
def addDim (n : GraphNode) (d : Segment) : GraphNode := { n with dims := n.dims ++ [d] }

/-- Applies a function to the last element of a list. -/
def onLast {α : Type} (f : α → α) : List α → List α
  | [] => []
  | [a] => [f a]
  | a :: rest => a :: onLast f rest

/-- Adds a literal subscript to the last segment of the last input. -/
def addDependencyDim (n : GraphNode) (d : Segment) : GraphNode :=
  { n with
    dependencies := onLast (onLast fun s => { s with dims := s.dims ++ [d] }) n.dependencies }

/-- The node in a listing. -/
def text (n : GraphNode) : String :=
  let range := "#" ++ toString n.uid ++ " [" ++ toString n.startPc ++ ".." ++ toString n.endPc ++ "]"
  let target :=
    match n.updated with
    | some p => " " ++ p.text ++ Segment.textDims n.dims
    | none => ""
  let sources :=
    if n.dependencies.isEmpty then ""
    else " <- " ++ String.intercalate ", " (n.dependencies.map Path.text)
  range ++ target ++ sources

end GraphNode

end Diglot
