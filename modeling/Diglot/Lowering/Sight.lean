import Diglot.Lowering.Monad
import Diglot.Text.Closeness

/-! # Looking names up

A `Sight` is what code can see from its place: the session, the frame, and the blocks around it from
the innermost to the outermost. A name is looked up, in this order,

- in the current block, if that is a language block inside a procedure;
- among the parameters and variables of the procedure, if a watch expression is lowered;
- among the members of the class and its base classes;
- among the parameters and variables of the procedure;
- in the blocks around, from the innermost on.
-/

set_option autoImplicit false

namespace Diglot

/-- At most `fuel` blocks from a block to the outermost one around it, if they all exist. -/
def Session.enclosingFrom (s : Session) : Nat → Nat → Option (List Nat)
  | 0, _ => none
  | fuel + 1, id =>
    match s.block? id with
    | none => none
    | some b =>
      match b.parent with
      | none => some [id]
      | some p => (s.enclosingFrom fuel p).map fun rest => id :: rest

/-- The blocks around a block, innermost first. -/
def Session.enclosing? (s : Session) (id : Nat) : Option (List Nat) :=
  s.enclosingFrom s.blocks.size id

namespace Lowering

/-- What a name was found to stand for. -/
inductive Resolution where
  | found (symbol : SymbolRef)
  | inaccessible (symbol : SymbolRef)
  | unbound
  deriving DecidableEq, Inhabited

/-- What code can see from its place. -/
structure Sight where
  session : Session
  frame : Frame
  /-- The blocks around, innermost first. -/
  blocks : List Nat

namespace Sight

/-- The symbols of a block. -/
def symbolsOf (v : Sight) (block : Nat) : SymbolTable :=
  ((v.session.block? block).map Block.symbols).getD {}

/-- Code of the given procedure sees the symbol in a block around it. -/
def isVisible (v : Sight) (symbol : Symbol) : Bool :=
  !symbol.isMember && !(v.session.isParsingModule && symbol.library.isSome) &&
    (symbol.function.isNone || symbol.function == v.frame.scope.function)

/-- Looks a name up in a block. -/
def inBlock? (v : Sight) (name : String) (block : Nat) : Option SymbolRef :=
  ((v.symbolsOf block).findNamed? name v.isVisible).map fun i => ⟨.block block, i⟩

/-- Looks a name up among the parameters and variables of the procedure. -/
def inProcedure? (v : Sight) (name : String) : Option SymbolRef :=
  match v.frame.scope.function, v.frame.scope.body with
  | some f, some body =>
    ((v.symbolsOf body).indexInFunction? name (some f)).map fun i => ⟨.block body, i⟩
  | _, _ => none

/-- The entry of a static member in the first block. -/
def staticEntry? (v : Sight) (cls : Nat) (name : String) : Option SymbolRef :=
  ((v.symbolsOf 0).findNamed? name fun s => s.isStatic && s.classScope == some cls).map
    fun i => ⟨.block 0, i⟩

/-- The member that a reference points to is static. -/
def isStaticMember (v : Sight) (m : MemberRef) : Bool :=
  (((v.session.classes.get? m.owner).bind fun c => c.symbols.get? m.index).map
    Symbol.isStatic).getD false

/-- Looks a member up in a class and its base classes. A static member is addressed through its
entry in the first block. -/
def inClass (v : Sight) (cls : Nat) (name : String) : Resolution :=
  match v.session.classes.lookupMember cls name v.frame.scope.classScope with
  | .missing => .unbound
  | .inaccessible m => .inaccessible ⟨.cls m.owner, m.index⟩
  | .found m =>
    match (if v.isStaticMember m then v.staticEntry? m.owner name else none) with
    | some r => .found r
    | none => .found ⟨.cls m.owner, m.index⟩

/-- The code stands in a language block inside a procedure. -/
def isNested (v : Sight) : Bool :=
  v.frame.scope.procedure.isSome && !v.frame.scope.isBody v.frame.block

/-- Looks a name up behind the classes: in the procedure, then in the blocks around. -/
def inBlocks (v : Sight) (name : String) : Resolution :=
  match v.inProcedure? name with
  | some r => .found r
  | none =>
    match v.blocks.findSome? (v.inBlock? name) with
    | some r => .found r
    | none => .unbound

/-- Looks a name up from the members of the class on. -/
def inScope (v : Sight) (name : String) : Resolution :=
  match v.frame.scope.classScope with
  | none => v.inBlocks name
  | some cls =>
    match v.inClass cls name with
    | .unbound => v.inBlocks name
    | resolution => resolution

/-- Looks a name up. -/
def resolve (v : Sight) (name : String) : Resolution :=
  match (if v.isNested then v.inBlock? name v.frame.block else none) with
  | some r => .found r
  | none =>
    if v.frame.scope.classScope = some Primitive.void.uid then .unbound
    else
      match (if v.session.isWatching then v.inProcedure? name else none) with
      | some r => .found r
      | none => v.inScope name

/-- The names that a message may suggest: those of the blocks around, then those of the class. -/
def visibleNames (v : Sight) : List String :=
  let ofBlock := fun id =>
    ((v.symbolsOf id).symbols.toList.filter fun s => !s.isMember && !s.isTemporary).map Symbol.name
  let ofClass :=
    match v.frame.scope.classScope.bind v.session.classes.get? with
    | some c => c.symbols.symbols.toList.map Symbol.name
    | none => []
  v.blocks.flatMap ofBlock ++ ofClass

/-- The names of procedures that a message may suggest. -/
def visibleProcedures (v : Sight) : List String :=
  let ofClass :=
    match v.frame.scope.classScope.bind v.session.classes.get? with
    | some c => c.procedures.toList.map Procedure.name
    | none => []
  v.session.procedures.toList.map Procedure.name ++ ofClass

/-- The name of a class, or a place holder. -/
def className (v : Sight) (cls : Nat) : String :=
  match v.session.classes.get? cls with
  | some c => c.name
  | none => "?"

end Sight

/-- What the code that is being emitted can see. The blocks around it have to exist. -/
def sight : Lower Sight := do
  let frame ← read
  let session ← getSession
  match session.enclosing? frame.block with
  | none => defect (.missingBlock frame.block)
  | some blocks =>
    match frame.scope.body with
    | some body => let _ ← getBlock body
    | none => pure ()
    return { session, frame, blocks }

end Lowering

end Diglot
