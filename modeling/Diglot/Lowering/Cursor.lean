import Diglot.Lowering.Sight

/-! # Walking along a chain

A `Cursor` tells how far a chain has been lowered and what is known of the value so far. The next
segment is resolved from there: the first one like any name, a later one as a member of the value's
class.
-/

set_option autoImplicit false

namespace Diglot.Lowering

/-- How far a chain has been lowered. -/
structure Cursor where
  /-- The type of the value so far. -/
  type : Ty := .unknown
  /-- How many segments of the chain are on the stack. -/
  depth : Nat := 0
  /-- The chain so far is the name of this class. -/
  anchor : Option Nat := none
  /-- The segments so far, as a dependency. -/
  path : Path := []
  /-- A segment is looked up at run time; what follows is no part of the dependency. -/
  isLate : Bool := false
  /-- The entry of the segments that are looked up at run time. -/
  lateEntry : Option Nat := none
  /-- A segment was replaced by null, which ends the chain. -/
  isStopped : Bool := false
  /-- The chain begins with a computed value. -/
  afterCall : Bool := false
  /-- A procedure was called by name. -/
  hasCall : Bool := false
  /-- The chain has one segment only. -/
  isSingle : Bool := false
  deriving DecidableEq, Inhabited

namespace Cursor

/-- Before the first segment. -/
def start (isSingle : Bool) : Cursor := { isSingle }

/-- The class in which the next segment is looked up. -/
def receiver? (c : Cursor) : Option Nat :=
  match c.anchor with
  | some cls => some cls
  | none => if c.type.isClass && !c.type.isArray then c.type.uid else none

/-- The next segment is looked up in an array. -/
def onArray (c : Cursor) : Bool := c.anchor.isNone && c.type.isArray

/-- Adds a segment to the dependency, unless the chain is looked up at run time already. -/
def track (c : Cursor) (s : Segment) : Cursor :=
  if c.isLate then c else { c with path := c.path ++ [s] }

end Cursor

/-- What an identifier in a chain stands for. -/
inductive SegmentTarget where
  | symbol (ref : SymbolRef)
  | cls (id : Nat)
  | inaccessible
  | arrayReceiver
  | unbound
  deriving DecidableEq, Inhabited

/-- What a call in a chain calls. -/
inductive CallTarget where
  | procedure (ref : ProcRef)
  | nonStatic
  | inaccessible
  | arrayReceiver
  | unresolved
  deriving DecidableEq, Inhabited

namespace Sight

/-- Resolves the first segment of a chain. A class may be named where no variable hides it, and the
class that anchors a split chain even then. -/
def rootTarget (v : Sight) (name : String) : SegmentTarget :=
  let cls := v.session.classes.indexOf? name
  if v.frame.anchor.isSome && cls == v.frame.anchor then
    match cls with
    | some c => .cls c
    | none => .unbound
  else
    match v.resolve name with
    | .found r => .symbol r
    | .inaccessible _ => .inaccessible
    | .unbound =>
      match cls with
      | some c => .cls c
      | none => .unbound

/-- Resolves a later segment of a chain. -/
def memberTarget (v : Sight) (name : String) (c : Cursor) : SegmentTarget :=
  if c.onArray then .arrayReceiver
  else
    match c.receiver? with
    | none => .unbound
    | some cls =>
      match v.inClass cls name with
      | .found r => .symbol r
      | .inaccessible _ => .inaccessible
      | .unbound => .unbound

/-- Resolves an identifier in a chain. -/
def segmentTarget (v : Sight) (name : String) (c : Cursor) : SegmentTarget :=
  if c.depth = 0 then v.rootTarget name else v.memberTarget name c

/-- Resolves a call at the root of a chain: a method of the class that may be used, a procedure, or
a constructor of the named class. -/
def rootCall (v : Sight) (name : String) (arity : Nat) : CallTarget :=
  let classes := v.session.classes
  let context := v.frame.scope.classScope
  match context.bind fun cls => (classes.lookupProcedure cls name arity context).found? with
  | some m => .procedure ⟨some m.owner, m.index⟩
  | none =>
    match v.session.procedures.find? name arity with
    | some i => .procedure ⟨none, i⟩
    | none =>
      match classes.indexOf? name with
      | none => .unresolved
      | some cls =>
        match (classes.get? cls).bind fun c => c.procedures.anyConstructor? arity with
        | some i => .procedure ⟨some cls, i⟩
        | none => .unresolved

/-- Resolves a later call of a chain. Through the name of a class only static procedures and
constructors can be called. -/
def memberCall (v : Sight) (name : String) (arity : Nat) (c : Cursor) : CallTarget :=
  let classes := v.session.classes
  if c.onArray then .arrayReceiver
  else
    match c.receiver? with
    | none => .unresolved
    | some cls =>
      match classes.lookupProcedure cls name arity v.frame.scope.classScope with
      | .missing => .unresolved
      | .inaccessible _ => .inaccessible
      | .found m =>
        match classes.procedure? ⟨some m.owner, m.index⟩ with
        | none => .unresolved
        | some p =>
          if c.anchor.isSome && !p.isStatic && !p.isConstructor then .nonStatic
          else .procedure ⟨some m.owner, m.index⟩

/-- Resolves a call in a chain. -/
def callTarget (v : Sight) (name : String) (arity : Nat) (c : Cursor) : CallTarget :=
  if c.depth = 0 then v.rootCall name arity else v.memberCall name arity c

/-- The member that a segment names but may not use, as a segment of a dependency. -/
def hiddenMember? (v : Sight) (name : String) (c : Cursor) : Option Segment :=
  let cls := if c.depth = 0 then v.frame.scope.classScope else c.receiver?
  (cls.bind fun cls => v.session.classes.anyMember? cls name).map fun m =>
    .ofName name (some ⟨.cls m.owner, m.index⟩) (some m.owner)

end Sight

/-- The type of an object whose class may be missing. -/
def objectType (cls : Option Nat) : Ty :=
  match cls with
  | some c => .scalar c
  | none => .var

/-- The type of a call: a constructor yields an object of its class. -/
def callType (p : Procedure) : Ty :=
  if p.isConstructor then objectType p.classScope else p.returns

/-- A called procedure as a segment of a dependency. A made-up accessor counts as its member. -/
def callSegment (p : Procedure) (name : String) : Segment :=
  match (if p.isGenerated then propertyName? p.name else none) with
  | some property => .ofName property none p.classScope
  | none => .ofMethod name

end Diglot.Lowering
