import Diglot.Class
import Diglot.Code.Block
import Diglot.Code.DebugMap
import Diglot.Diagnostic
import Diglot.Log
import Diglot.Options

/-! # Compile sessions

A `Session` is all that compilation has produced so far: the blocks with their code, the tables of
classes, procedures and late-bound names, the diagnostics, and the counters from which variables get
their places.
-/

set_option autoImplicit false

/-! ## Late-bound names

A name that the compiler cannot resolve is left to the machine, which looks it up when the code
runs. The code refers to such a name by its position in one of two tables.
-/

namespace Diglot

/-- A member that is looked up at run time, and the members behind it in the same chain. -/
structure LateVariable where
  name : String
  members : List String
  /-- The procedure in whose code the name stands. -/
  function : Option Nat
  classScope : Option Nat
  deriving DecidableEq, Inhabited

/-- The path that is looked up. -/
def LateVariable.path (v : LateVariable) : String := String.intercalate "." (v.name :: v.members)

/-- A procedure that is looked up at run time by its name and number of arguments. -/
structure LateFunction where
  name : String
  arity : Nat
  /-- The procedure in whose code the call stands. -/
  function : Option Nat
  classScope : Option Nat
  deriving DecidableEq, Inhabited

end Diglot

/-! ## Sessions -/

namespace Diglot

/-- Numbers by class; a class without an entry has not been counted yet. -/
abbrev Tally := List (Nat × Nat)

namespace Tally

/-- The number of a class. -/
def get? (t : Tally) (key : Nat) : Option Nat := t.lookup key

/-- Sets the number of a class. -/
def set (t : Tally) (key value : Nat) : Tally :=
  match t with
  | [] => [(key, value)]
  | (k, v) :: rest => if k = key then (k, value) :: rest else (k, v) :: set rest key value

theorem get?_set (t : Tally) (key value k : Nat) :
    (t.set key value).get? k = if k = key then some value else t.get? k := by
  induction t with
  | nil => grind [set, get?]
  | cons p rest ih => grind [set, get?]

end Tally

/-- What has been handed out so far. -/
structure Counters where
  /-- Places of global variables. -/
  globals : Nat := 0
  /-- Boxes on the heap. -/
  heap : Nat := 0
  /-- Places in the frame of the procedure that is being lowered. -/
  locals : Nat := 0
  /-- Places of watch expressions. -/
  watch : Nat := 0
  /-- Places of static members. -/
  classStatics : Tally := []
  /-- Places of instance members. -/
  classInstances : Tally := []
  /-- Made-up names. -/
  temporaries : Nat := 0
  /-- Compiled units. -/
  units : Nat := 0
  deriving DecidableEq, Inhabited

/-- The state of compilation. -/
structure Session where
  options : Options
  file : Option String := none
  classes : ClassTable := .primitives
  procedures : ProcedureTable := {}
  blocks : Array Block := #[]
  lateVariables : Array LateVariable := #[]
  lateFunctions : Array LateFunction := #[]
  debugMap : DebugMap := {}
  diagnostics : Diagnostics := #[]
  counters : Counters := {}
  /-- The code of all watch expressions. -/
  watch : Array Instruction := #[]
  /-- The identity of the next dependency node. -/
  nextUid : Nat := 0
  /-- A watch expression is being lowered. -/
  isWatching : Bool := false
  /-- Imported symbols are out of sight. -/
  isParsingModule : Bool := false
  log : Array LogRecord := #[]

namespace Session

instance : Inhabited Session := ⟨{ options := {} }⟩

/-- A session that has compiled nothing yet. -/
def new (options : Options) : Session := { options }

/-- Names the file that diagnostics point into. -/
def setFile (s : Session) (file : String) : Session := { s with file := some file }

/-- Puts imported symbols out of sight, or back into it. -/
def setParsingModule (s : Session) (on : Bool) : Session := { s with isParsingModule := on }

/-- Adds a line to the log. -/
def note (s : Session) (level : LogLevel) (topic : LogTopic) (message : String) : Session :=
  { s with log := s.log.push ⟨level, topic, message⟩ }

/-- The diagnostic of an issue at a span of the current file. -/
def diagnostic (s : Session) (issue : Issue) (message : String) (span : Span) : Diagnostic :=
  { issue, message, file := s.file, line := span.line, column := span.column }

/-- Records a diagnostic, which also goes to the log. -/
def report (s : Session) (d : Diagnostic) : Session :=
  let level := match d.kind with
    | .warning => LogLevel.warn
    | _ => LogLevel.error
  { s with diagnostics := s.diagnostics.push d }.note level .code d.text

/-- The block of an index. -/
def block? (s : Session) (id : Nat) : Option Block := s.blocks[id]?

/-- Changes the block of an index. -/
def modifyBlock (s : Session) (id : Nat) (f : Block → Block) : Session :=
  { s with blocks := s.blocks.modify id f }

/-- Adds a block and tells its parent, if it has one. -/
def addBlock (s : Session) (kind : BlockKind) (dialect : Dialect) (parent : Option Nat) : Session :=
  let id := s.blocks.size
  let s := { s with blocks := s.blocks.push { id, kind, dialect, parent } }
  match parent with
  | some p => s.modifyBlock p fun b => { b with children := b.children.push id }
  | none => s

@[simp] theorem block?_modifyBlock (s : Session) (id other : Nat) (f : Block → Block) :
    (s.modifyBlock id f).block? other =
      if id = other then (s.block? other).map f else s.block? other := by
  simp only [modifyBlock, block?, Array.getElem?_modify]

@[simp] theorem size_blocks_modifyBlock (s : Session) (id : Nat) (f : Block → Block) :
    (s.modifyBlock id f).blocks.size = s.blocks.size := by
  simp [modifyBlock]

@[simp] theorem size_blocks_addBlock (s : Session) (kind : BlockKind) (dialect : Dialect)
    (parent : Option Nat) : (s.addBlock kind dialect parent).blocks.size = s.blocks.size + 1 := by
  cases parent <;> simp [addBlock]

/-- The procedure that a reference points to. -/
def procedure? (s : Session) (r : ProcRef) : Option Procedure :=
  match r.classScope with
  | none => s.procedures.get? r.index
  | some _ => s.classes.procedure? r

/-- Changes the procedure that a reference points to. -/
def modifyProcedure (s : Session) (r : ProcRef) (f : Procedure → Procedure) : Session :=
  match r.classScope with
  | none => { s with procedures := s.procedures.modify r.index f }
  | some c =>
    { s with
      classes := s.classes.modify c fun k => { k with procedures := k.procedures.modify r.index f } }

/-- The symbol that a reference points to. -/
def symbol? (s : Session) (r : SymbolRef) : Option Symbol :=
  match r.owner with
  | .block id => (s.block? id).bind fun b => b.symbols.get? r.index
  | .cls id => (s.classes.get? id).bind fun c => c.symbols.get? r.index

/-! ## Registration -/

/-- Imports a variable of a library into the first block, and tells its position. -/
def importSymbol (s : Session) (name : String) (type : Ty) (library : String) : Nat × Session :=
  let s := if s.blocks.isEmpty then s.addBlock .global .associative none else s
  let symbol : Symbol :=
    { name, type, library := some library, offset := s.counters.globals }
  let position := ((s.block? 0).map fun b => b.symbols.size).getD 0
  let counters := { s.counters with globals := s.counters.globals + symbol.size }
  (position, { s with counters }.modifyBlock 0 fun b => { b with symbols := b.symbols.append symbol })

/-- Registers a class unless its name is taken. -/
def addClass (s : Session) (c : Class) : Option Nat × Session :=
  match s.classes.append? c with
  | some classes => (some s.classes.size, { s with classes })
  | none => (none, s)

/-- Registers a procedure of a class, if the class exists. -/
def addMethod (s : Session) (cls : Nat) (p : Procedure) : Option Nat × Session :=
  match s.classes.get? cls with
  | some c =>
    (some c.procedures.size, { s with classes := s.classes.appendProcedure cls p })
  | none => (none, s)

/-- Registers a procedure outside of classes. -/
def addProcedure (s : Session) (p : Procedure) : Nat × Session :=
  (s.procedures.size, { s with procedures := s.procedures.append p })

end Session

end Diglot
