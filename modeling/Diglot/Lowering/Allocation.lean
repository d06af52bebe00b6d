import Diglot.Lowering.Monad

/-! # Giving variables a place

A new variable gets its offset from one of several counters, chosen by where it is declared: in a
watch expression, in a procedure, as a static or instance member of a class, or globally. Places of
locals lie below the frame of the procedure. The instance members of a class are counted on from
those of its base class.

A static member is also entered into the first block, where code outside of the class finds it.
-/

set_option autoImplicit false

namespace Diglot

/-- What is known of a variable before it has a place. -/
structure Declaration where
  name : String
  type : Ty
  region : Region := .stack
  isStatic : Bool := false
  access : Access := .isPublic
  isParameter : Bool := false
  deriving DecidableEq, Inhabited

/-- The declaration that a variable in the source writes down. -/
def Declaration.ofVariable (v : Variable) (type : Ty) : Declaration :=
  { name := v.name, type, region := v.region, isStatic := v.isStatic, access := v.access }

/-- The counter that a variable gets its place from. -/
inductive Bucket where
  | watch
  | frame
  | classStatic (cls : Nat)
  | classInstance (cls : Nat)
  | global
  deriving DecidableEq, Inhabited

namespace Bucket

/-- The size of the frame that every call sets up above the locals. -/
def frameSize : Nat := 12

/-- The next free number of the bucket. The first instance member of a class continues the count of
its base class. -/
def next (b : Bucket) (c : Counters) (classes : ClassTable) : Nat :=
  match b with
  | watch => c.watch
  | frame => c.locals
  | classStatic cls => (c.classStatics.get? cls).getD 0
  | classInstance cls =>
    match c.classInstances.get? cls with
    | some n => n
    | none => (((classes.get? cls).bind Class.base).bind c.classInstances.get?).getD 0
  | global => c.globals

/-- The counters after the numbers of the bucket below `n` have been handed out. -/
def setNext (b : Bucket) (c : Counters) (n : Nat) : Counters :=
  match b with
  | watch => { c with watch := n }
  | frame => { c with locals := n }
  | classStatic cls => { c with classStatics := c.classStatics.set cls n }
  | classInstance cls => { c with classInstances := c.classInstances.set cls n }
  | global => { c with globals := n }

/-- The offset that belongs to a number of the bucket. -/
def offset (b : Bucket) (n : Nat) : Int :=
  match b with
  | frame => -((1 + frameSize + n : Nat) : Int)
  | _ => n

end Bucket

namespace Lowering

/-- The bucket of a variable that is declared in a scope. -/
def bucketOf (isWatching : Bool) (scope : Scope) (isStatic : Bool) : Bucket :=
  if isWatching then .watch
  else
    match scope.function, scope.classScope with
    | some _, _ => .frame
    | none, some cls => if isStatic then .classStatic cls else .classInstance cls
    | none, none => .global

/-- The symbol of a declaration at its place. -/
def symbolOf (d : Declaration) (s : Session) (frame : Frame) (bucket : Bucket) : Symbol :=
  { name := d.name
    type := d.type
    region := d.region
    classScope := frame.scope.classScope
    function := frame.scope.function
    offset := bucket.offset (bucket.next s.counters s.classes)
    heapIndex := if d.region = .heap then some s.counters.heap else none
    isStatic := d.isStatic
    access := d.access
    block := frame.block
    isParameter := d.isParameter }

/-- The counters after a variable has got its place and, on the heap, its box. -/
def countersAfter (d : Declaration) (s : Session) (bucket : Bucket) (size : Nat) : Counters :=
  let c := bucket.setNext s.counters (bucket.next s.counters s.classes + size)
  if d.region = .heap then { c with heap := s.counters.heap + 1 } else c

/-- Enters a member into its class and, if it is static, into the first block. -/
def appendMember (cls : Nat) (symbol : Symbol) : Lower SymbolRef := do
  match (← getSession).classes.get? cls with
  | none => defect (.missingClass cls)
  | some c =>
    modifySession fun s => { s with classes := s.classes.appendSymbol cls symbol }
    if symbol.isStatic then
      modifyBlock 0 fun b => { b with symbols := b.symbols.append { symbol with block := 0 } }
    return ⟨.cls cls, c.symbols.size⟩

/-- Enters a variable into the current block. -/
def appendLocal (symbol : Symbol) : Lower SymbolRef := do
  let id := (← read).block
  let block ← getBlock id
  modifySession fun s => s.modifyBlock id fun b => { b with symbols := b.symbols.append symbol }
  return ⟨.block id, block.symbols.size⟩

/-- Declares a variable in the current scope. -/
def allocate (d : Declaration) : Lower SymbolRef := do
  let frame ← read
  let s ← getSession
  let bucket := bucketOf s.isWatching frame.scope d.isStatic
  let symbol := symbolOf d s frame bucket
  modifySession fun s => { s with counters := countersAfter d s bucket symbol.size }
  match bucket with
  | .classStatic cls => appendMember cls symbol
  | .classInstance cls => appendMember cls symbol
  | _ => appendLocal symbol

/-- A made-up name that begins with the given letters. -/
def nextTemporary (letters : String) : Lower String := do
  let n := (← getSession).counters.temporaries
  modifySession fun s => { s with counters := { s.counters with temporaries := n + 1 } }
  return letters ++ toString n

end Lowering

end Diglot
