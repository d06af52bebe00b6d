import Diglot.Session

/-! # The lowering monad

Lowering reads a `Frame`, which stays the same while a stretch of code is lowered, and changes a
`State`. It may stop early: with the diagnostic of an error that no code can be emitted for, or with
a `Defect`, which is a broken promise between parts of the compiler. What was recorded before a stop
stays recorded.
-/

set_option autoImplicit false

namespace Diglot.Lowering

/-- Where a stretch of code stands among classes and procedures. -/
structure Scope where
  classScope : Option Nat := none
  procedure : Option ProcRef := none
  /-- The block that holds the body of the procedure. -/
  body : Option Nat := none
  deriving DecidableEq, Inhabited

namespace Scope

/-- Outside of classes and procedures. -/
def global : Scope := {}

/-- In a class and in no procedure. -/
def inClass (cls : Nat) : Scope := { classScope := some cls }

/-- The index of the procedure. -/
def function (s : Scope) : Option Nat := s.procedure.map ProcRef.index

/-- The block is the body of the procedure itself and not nested in it. -/
def isBody (s : Scope) (block : Nat) : Bool := s.body == some block

end Scope

/-- A broken promise between parts of the compiler. -/
inductive Defect where
  | missingBlock (id : Nat)
  | missingSymbol (symbol : SymbolRef)
  | missingClass (id : Nat)
  | missingProcedure (procedure : ProcRef)
  | emptyChain
  | sealedNode (uid : Nat)
  | sealedTwice (uid : Nat)
  | patchOutside (pc block : Nat)
  | patchNoJump (opcode : OpCode)
  | patchTwice (opcode : OpCode) (target : Nat)
  | patchNoLabel (opcode : OpCode)
  | stringOperand
  | depthExceeded
  deriving DecidableEq, Inhabited

namespace Defect

/-- An index that may be missing, as defects show it. -/
def indexText : Option Nat → String
  | some i => "Some(" ++ toString i ++ ")"
  | none => "None"

/-- A symbol as defects show it. -/
def symbolText (r : SymbolRef) : String :=
  let owner := match r.owner with
    | .block id => "Block(" ++ toString id ++ ")"
    | .cls id => "Class(" ++ toString id ++ ")"
  "SymbolRef \x7b owner: " ++ owner ++ ", index: " ++ toString r.index ++ " \x7d"

/-- What went wrong. -/
def reason : Defect → String
  | missingBlock id => "Code block " ++ toString id ++ " does not exist."
  | missingSymbol r => "Missing symbol " ++ symbolText r ++ "."
  | missingClass id => "Class " ++ toString id ++ " does not exist."
  | missingProcedure r =>
    "Procedure ProcRef \x7b class_scope: " ++ indexText r.classScope ++ ", index: " ++
      toString r.index ++ " \x7d does not exist."
  | emptyChain => "Empty identifier list."
  | sealedNode uid => "Graph node #" ++ toString uid ++ " is sealed."
  | sealedTwice uid => "Graph node #" ++ toString uid ++ " sealed twice."
  | patchOutside pc block =>
    "Malformed backpatch position " ++ toString pc ++ " in block " ++ toString block ++ "."
  | patchNoJump op => "Backpatching non-jump instruction " ++ op.mnemonic ++ "."
  | patchTwice op target =>
    "Jump " ++ op.mnemonic ++ " already targets " ++ toString target ++ "."
  | patchNoLabel op => "Malformed jump target of " ++ op.mnemonic ++ "."
  | stringOperand => "String literals are lowered as character arrays."
  | depthExceeded => "The tree is deeper than its weight."

/-- The defect as it is reported. -/
def message (d : Defect) : String := "Dualscript internal error. " ++ d.reason

end Defect

/-- Why lowering stopped. -/
inductive Stop where
  /-- An error that no code can be emitted for. -/
  | halt (diagnostic : Diagnostic)
  | defect (defect : Defect)
  deriving DecidableEq, Inhabited

/-- What stays the same while a stretch of code is lowered. -/
structure Frame where
  block : Nat
  scope : Scope
  dialect : Dialect
  /-- Names that the unit assigns somewhere and that may be read before. -/
  forward : List String := []
  /-- The arguments of a call are being lowered, which carry replication guides. -/
  isGuided : Bool := false
  /-- What is read becomes a dependency of the current node. -/
  isTracked : Bool := false
  /-- A class that the root of a chain may name. -/
  anchor : Option Nat := none
  /-- There is a loop to leave. -/
  inLoop : Bool := false
  deriving DecidableEq, Inhabited

/-- What lowering changes. -/
structure State where
  session : Session
  /-- The dependency node of the current statement. -/
  node : GraphNode := default
  /-- The nodes of a chain that is being split, until it is split to the end. -/
  held : List GraphNode := []
  /-- The segments of a chain that is being split, as far as they have been lowered. -/
  pointers : List Node := []
  /-- The last procedure that the current statement was found to call. -/
  lastCallee : Option ProcRef := none
  deriving Inhabited

/-- A step of lowering. -/
abbrev Lower := ReaderT Frame (EStateM Stop State)

/-- Stops with a defect. -/
def defect {α : Type} (d : Defect) : Lower α := throw (.defect d)

/-- The session as it is now. -/
def getSession : Lower Session := do return (← get).session

/-- Changes the session. -/
def modifySession (f : Session → Session) : Lower Unit :=
  modify fun s => { s with session := f s.session }

/-- Changes the dependency node of the current statement. -/
def modifyNode (f : GraphNode → GraphNode) : Lower Unit :=
  modify fun s => { s with node := f s.node }

/-- Adds a line to the log. -/
def note (level : LogLevel) (topic : LogTopic) (message : String) : Lower Unit :=
  modifySession fun s => s.note level topic message

/-- Records a diagnostic and goes on. -/
def report (issue : Issue) (message : String) (span : Span) : Lower Unit :=
  modifySession fun s => s.report (s.diagnostic issue message span)

/-- Records a diagnostic and stops with it. -/
def halt {α : Type} (issue : Issue) (message : String) (span : Span) : Lower α := do
  let d := (← getSession).diagnostic issue message span
  modifySession fun s => s.report d
  throw (.halt d)

/-- The class in whose scope code is being emitted. -/
def classScope : Lower (Option Nat) := do return (← read).scope.classScope

/-- A block that has to exist. -/
def getBlock (id : Nat) : Lower Block := do
  match (← getSession).block? id with
  | some b => return b
  | none => defect (.missingBlock id)

/-- Changes a block that has to exist. -/
def modifyBlock (id : Nat) (f : Block → Block) : Lower Unit := do
  let _ ← getBlock id
  modifySession fun s => s.modifyBlock id f

/-- Adds a block below one that has to exist, and tells its index. -/
def addBlock (kind : BlockKind) (dialect : Dialect) (parent : Nat) : Lower Nat := do
  let id := (← getSession).blocks.size
  let _ ← getBlock parent
  modifySession fun s => s.addBlock kind dialect (some parent)
  return id

/-- A symbol that has to exist. -/
def getSymbol (r : SymbolRef) : Lower Symbol := do
  match (← getSession).symbol? r with
  | some s => return s
  | none => defect (.missingSymbol r)

end Diglot.Lowering
