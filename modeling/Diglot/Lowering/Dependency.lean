import Diglot.Lowering.Cursor
import Diglot.Source.Tree

/-! # Recording dependencies

While the value of an associative statement is lowered, every chain that is read becomes a
dependency of the statement's node. A chain that is split into several statements is also recorded
as a whole: its segments are put together again and resolved without emitting code.
-/

set_option autoImplicit false

namespace Diglot.Lowering

/-- Records that the current statement reads a path. `viaCall` tells that a procedure was called on
the way. -/
def recordRead (path : Path) (viaCall : Bool) : Lower Unit := do
  if (← read).isTracked then
    let node := (← get).node
    if node.isSealed then defect (.sealedNode node.uid)
    if node.lacks path then
      note .trace .graph ("#" ++ toString node.uid ++ " depends on " ++ path.text)
      modifyNode fun n =>
        let n := n.addDependency path
        if viaCall && n.firstCall.isNone then n.markFirstCall else n

/-- Records that the current statement writes an element behind the given literal subscripts. -/
def recordIndexing (literals : List Segment) : Lower Unit := do
  if (← read).isTracked then
    modifyNode fun n => literals.foldl GraphNode.addDim { n with isIndexing := true }

/-- Applies a function to the first element of a list. -/
def onFirst {α : Type} (f : α → α) : List α → List α
  | [] => []
  | a :: rest => f a :: rest

/-- Adds literal subscripts to the first statement of a chain that is being split: to what it writes
or to what it reads. -/
def recordSplitDims (literals : List Segment) (written : Bool) : Lower Unit := do
  if (← getSession).options.fullSsa then
    let add := if written then GraphNode.addDim else GraphNode.addDependencyDim
    modify fun s => { s with held := onFirst (literals.foldl add) s.held }

/-! ## Resolving a chain without code -/

/-- How a walk along a chain goes on. -/
inductive Walk where
  | go (cursor : Cursor)
  | stop (cursor : Cursor)
  | abandon
  deriving DecidableEq, Inhabited

namespace Sight

/-- Walks on over a name that was resolved; `shown` is the name that the dependency shows. -/
def walkTarget (v : Sight) (c : Cursor) (shown : String) (dims : Nat) (allowClass : Bool) : Walk :=
  match v.segmentTarget shown c with
  | .symbol r =>
    match v.session.symbol? r with
    | none => .abandon
    | some s =>
      .go { c with
        path := c.path ++ [.ofName shown (some r) s.classScope]
        type := s.type.subscripted dims
        anchor := none }
  | .cls id =>
    if allowClass then
      .go { c with
        path := c.path ++ [.ofName shown none (some id)], type := .scalar id, anchor := some id }
    else .stop c
  | .inaccessible =>
    match v.hiddenMember? shown c with
    | some s => .stop { c with path := c.path ++ [s] }
    | none => .stop c
  | _ => .stop c

/-- Walks on over a call that was resolved. -/
def walkCall (v : Sight) (c : Cursor) (name : String) (arity : Nat) : Walk :=
  match v.callTarget name arity c with
  | .procedure r =>
    match v.session.procedure? r with
    | none => .abandon
    | some p =>
      .go { c with path := c.path ++ [callSegment p name], type := callType p, anchor := none }
  | _ => .stop c

/-- Walks on over one segment. -/
def walkSegment (v : Sight) (c : Cursor) : Node → Walk
  | .identifier ident =>
    if ident.isThis && c.depth == 0 then
      let cls := v.frame.scope.classScope
      .go { c with path := c.path ++ [.ofName ident.name none cls], type := objectType cls }
    else v.walkTarget c ident.name ident.dims.length true
  | .call call =>
    match (if 0 < c.depth then propertyName? call.name else none) with
    | some property => v.walkTarget c property call.dims.length false
    | none => v.walkCall c call.name call.args.length
  | _ => .stop c

/-- Walks along segments as far as they can be resolved. -/
def walk (v : Sight) : Cursor → List Node → Option Cursor
  | c, [] => some c
  | c, segment :: rest =>
    match v.walkSegment c segment.unwrap with
    | .go c => v.walk { c with depth := c.depth + 1 } rest
    | .stop c => some c
    | .abandon => none

/-- The dependency that a chain stands for, as far as it can be resolved. -/
def dependency? (v : Sight) (node : Node) : Option Path :=
  let segments :=
    match node with
    | .member .. => node.segments.toOption
    | .identifier _ => some [node]
    | .call _ => some [node]
    | _ => none
  match segments.bind fun ss => v.walk (.start (ss.length == 1)) ss with
  | some c => if c.path.isEmpty then none else some c.path
  | none => none

end Sight

/-- Records the chain that is being split as a whole, and forgets its segments. -/
def recordSplitChain : Lower Unit := do
  let v ← sight
  let path := (Node.reassemble (← get).pointers).bind v.dependency?
  modify fun s => { s with pointers := [] }
  match path with
  | none => return
  | some path =>
    note .trace .code ("reassembled chain " ++ path.text)
    recordRead path false

end Diglot.Lowering
