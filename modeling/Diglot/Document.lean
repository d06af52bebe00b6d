import Diglot.Compile

/-! # Documents

The program as data for other programs. A `Document` is a tree of lists and named fields;
`Document.render` writes it as JSON.

Each variant of a type is written as its tag, or as an object with its tag and its content; a missing
part is null, and so is a number that is not finite.
-/

set_option autoImplicit false

namespace Diglot

/-- A tree of data. -/
inductive Document where
  | null
  | bool (value : Bool)
  | int (value : Int)
  | double (value : Binary.Double)
  | string (value : String)
  | list (items : List Document)
  | object (fields : List (String × Document))
  deriving Inhabited

namespace Document

/-! ## Writing -/

/-- A character inside a JSON string. -/
def escapeChar (c : Char) : String :=
  if c = '"' then "\\\""
  else if c = '\\' then "\\\\"
  else if c.toNat < 32 then
    let digits := Text.codePoint c
    "\\u" ++ String.ofList (List.replicate (4 - digits.length) '0' ++ digits)
  else c.toString

/-- A JSON string. -/
def renderText (s : String) : String := "\"" ++ String.join (s.toList.map escapeChar) ++ "\""

/-- A number, or null if it is not finite. -/
def renderDouble : Binary.Double → String
  | .finite negative d => (Binary.Double.finite negative d).text
  | _ => "null"

mutual

/-- The document as JSON. -/
def render : Document → String
  | null => "null"
  | bool v => if v then "true" else "false"
  | int v => toString v
  | double v => renderDouble v
  | string v => renderText v
  | list items => "[" ++ String.intercalate "," (renderList items) ++ "]"
  | object fields => "\x7b" ++ String.intercalate "," (renderFields fields) ++ "\x7d"

/-- The items of a list. -/
def renderList : List Document → List String
  | [] => []
  | d :: rest => d.render :: renderList rest

/-- The fields of an object. -/
def renderFields : List (String × Document) → List String
  | [] => []
  | (name, d) :: rest => (renderText name ++ ":" ++ d.render) :: renderFields rest

end

/-! ## Building -/

/-- A natural number. -/
def nat (n : Nat) : Document := int n

/-- A part that may be missing. -/
def option {α : Type} (f : α → Document) : Option α → Document
  | some a => f a
  | none => null

/-- An index that may be missing. -/
def index? (i : Option Nat) : Document := option nat i

/-- A list of parts. -/
def array {α : Type} (f : α → Document) (items : List α) : Document := list (items.map f)

/-- A tag with its content. -/
def tagged (tag : String) (content : Document) : Document := object [(tag, content)]

end Document

open Document

/-! ## Parts of a program -/

namespace Register

/-- The register as a tag. -/
def tag : Register → String
  | ax => "AX"
  | bx => "BX"
  | cx => "CX"
  | dx => "DX"
  | lx => "LX"
  | rx => "RX"

end Register

namespace OpCode

/-- The opcode as a tag. -/
def tag : OpCode → String
  | alloc => "Alloc"
  | alloca => "Alloca"
  | bounce => "Bounce"
  | call => "Call"
  | callr => "CallR"
  | cjmp => "CJmp"
  | depx => "DepX"
  | jmp => "Jmp"
  | jz => "Jz"
  | jgz => "Jgz"
  | jlz => "Jlz"
  | jmpLtEq => "JmpLtEq"
  | jmpGtEq => "JmpGtEq"
  | jmpLt => "JmpLt"
  | mov => "Mov"
  | pop => "Pop"
  | popb => "PopB"
  | popg => "PopG"
  | poplist => "PopList"
  | popm => "PopM"
  | popw => "PopW"
  | push => "Push"
  | pushb => "PushB"
  | pushg => "PushG"
  | pushindex => "PushIndex"
  | pushlist => "PushList"
  | pushm => "PushM"
  | pushw => "PushW"
  | range => "Range"
  | ret => "Ret"
  | retb => "RetB"
  | retcn => "RetCn"
  | throw => "Throw"
  | add => "Add"
  | sub => "Sub"
  | mul => "Mul"
  | div => "Div"
  | mod => "Mod"
  | eq => "Eq"
  | nq => "Nq"
  | gt => "Gt"
  | lt => "Lt"
  | ge => "Ge"
  | le => "Le"
  | and => "And"
  | or => "Or"
  | bitAnd => "BitAnd"
  | bitOr => "BitOr"
  | bitXor => "BitXor"
  | not => "Not"
  | neg => "Neg"
  | bitNot => "BitNot"

/-- All opcodes. -/
def all : List OpCode :=
  [alloc, alloca, bounce, call, callr, cjmp, depx, jmp, jz, jgz, jlz, jmpLtEq, jmpGtEq, jmpLt, mov,
    pop, popb, popg, poplist, popm, popw, push, pushb, pushg, pushindex, pushlist, pushm, pushw,
    range, ret, retb, retcn, throw, add, sub, mul, div, mod, eq, nq, gt, lt, ge, le, and, or,
    bitAnd, bitOr, bitXor, not, neg, bitNot]

/-- The opcode of a tag. -/
def ofTag? (t : String) : Option OpCode := all.find? fun op => op.tag == t

end OpCode

/-- A span with its four numbers. -/
def Span.document (s : Span) : Document :=
  object [("line", nat s.line), ("column", nat s.column), ("end_line", nat s.endLine),
    ("end_column", nat s.endColumn)]

/-- A type with its class and rank. -/
def Ty.document (t : Ty) : Document :=
  object [("uid", nat (t.uid.getD absentIndex)), ("rank", int t.rank),
    ("is_indexable", bool t.isArray)]

/-- The modifier as a tag. -/
def Access.tag : Access → String
  | isPublic => "Public"
  | isProtected => "Protected"
  | isPrivate => "Private"

/-- A symbol with all that is known of it. -/
def Symbol.document (s : Symbol) : Document :=
  object [("name", string s.name), ("ty", s.type.document), ("region", string s.region.name),
    ("class_scope", index? s.classScope), ("function_index", index? s.function),
    ("index", int s.offset), ("heap_index", index? s.heapIndex), ("size", nat s.size),
    ("is_static", bool s.isStatic), ("access", string s.access.tag),
    ("runtime_table_index", nat s.block), ("symbol_table_index", nat s.position),
    ("global_index", null), ("extern_lib", option string s.library),
    ("is_argument", bool s.isParameter)]

/-- An operand with its tag. -/
def Operand.document : Operand → Document
  | .int v => tagged "Int" (.int v)
  | .double v => tagged "Double" (.double v)
  | .bool v => tagged "Bool" (.bool v)
  | .char c => tagged "Char" (.string c.toString)
  | .stringPointer i => tagged "StringPointer" (nat i)
  | .null => .string "Null"
  | .var i => tagged "VarIndex" (nat i)
  | .memVar i => tagged "MemVarIndex" (nat i)
  | .staticVar i => tagged "StaticMemVarIndex" (nat i)
  | .cls i => tagged "ClassIndex" (index? i)
  | .function i => tagged "FunctionIndex" (index? i)
  | .block i => tagged "BlockIndex" (nat i)
  | .label pc => tagged "LabelIndex" (nat (pc.getD absentIndex))
  | .arrayDim n => tagged "ArrayDim" (nat n)
  | .guideCount n => tagged "ReplicationGuide" (nat n)
  | .register r => tagged "Register" (.string r.tag)
  | .dynamic i => tagged "Dynamic" (nat i)
  | .this => .string "ThisPtr"
  | .pointer i => tagged "Pointer" (nat i)
  | .arrayPointer i => tagged "ArrayPointer" (nat i)
  | .staticType t =>
    tagged "StaticType" (object [("uid", nat (t.uid.getD absentIndex)), ("rank", .int t.rank)])
  | .defaultArg => .string "DefaultArg"

/-- A debug record; a step that is not known yet is the greatest index. -/
def DebugRecord.document (d : DebugRecord) : Document :=
  object [("span", d.span.document),
    ("next_steps", array (fun (s : Option Nat) => nat (s.getD absentIndex)) d.nextSteps)]

/-- An instruction with its operands. -/
def Instruction.document (i : Instruction) : Document :=
  object [("opcode", string i.opcode.tag), ("op1", option Operand.document i.op1),
    ("op2", option Operand.document i.op2), ("op3", option Operand.document i.op3),
    ("debug", option DebugRecord.document i.debug)]

/-- A reference to a procedure. -/
def ProcRef.document (r : ProcRef) : Document :=
  object [("class_scope", index? r.classScope), ("index", nat r.index)]

/-- A reference to a symbol. -/
def SymbolRef.document (r : SymbolRef) : Document :=
  let owner := match r.owner with
    | .block id => tagged "Block" (nat id)
    | .cls id => tagged "Class" (nat id)
  object [("owner", owner), ("index", nat r.index)]

/-- The kind as a tag. -/
def SegmentKind.tag : SegmentKind → String
  | symbol => "Symbol"
  | literal => "Literal"
  | method => "Method"

mutual

/-- A segment with its subscripts. -/
def Segment.document : Segment → Document
  | ⟨kind, name, symbol, cls, dims⟩ =>
    object [("kind", string kind.tag), ("name", string name),
      ("symbol", option SymbolRef.document symbol), ("class_scope", index? cls),
      ("dimensions", list (Segment.documents dims))]

/-- Segments in their order. -/
def Segment.documents : List Segment → List Document
  | [] => []
  | s :: rest => s.document :: Segment.documents rest

end

/-- A path with its segments. -/
def Path.document (p : Path) : Document := object [("nodes", list (Segment.documents p))]

/-- A dependency node. Nothing keeps others from depending on it. -/
def GraphNode.document (n : GraphNode) : Document :=
  object [("uid", nat n.uid), ("language_block", nat n.block),
    ("procedure", option ProcRef.document n.procedure), ("class_scope", index? n.classScope),
    ("update_block", object [("start_pc", nat n.startPc), ("end_pc", nat n.endPc)]),
    ("updated", option Path.document n.updated),
    ("dependencies", array Path.document n.dependencies),
    ("dimension_nodes", list (Segment.documents n.dims)), ("allow_dependents", bool true),
    ("is_indexing_lhs", bool n.isIndexing), ("is_ssa_temp", bool n.isTemporary),
    ("first_proc_ref", index? n.firstCall), ("sealed", bool n.isSealed)]

/-- A block with its symbols, code and dependency nodes. -/
def Block.document (b : Block) : Document :=
  object [("id", nat b.id), ("kind", string b.kind.name), ("language", string b.dialect.name),
    ("parent", index? b.parent), ("entry", index? b.entry),
    ("symbols", array Symbol.document b.symbols.symbols.toList),
    ("instructions", array Instruction.document b.code.toList),
    ("graph", array GraphNode.document b.graph.toList)]

/-- A late-bound member. -/
def LateVariable.document (v : LateVariable) : Document :=
  object [("name", string v.name), ("members", array string v.members),
    ("function", index? v.function), ("class_scope", index? v.classScope)]

/-- A late-bound procedure. -/
def LateFunction.document (f : LateFunction) : Document :=
  object [("name", string f.name), ("arity", nat f.arity), ("function", index? f.function),
    ("class_scope", index? f.classScope)]

/-- A diagnostic. -/
def Diagnostic.document (d : Diagnostic) : Document :=
  object [("code", string d.issue.tag), ("kind", string d.kind.tag), ("message", string d.message),
    ("file", option string d.file), ("line", nat d.line), ("column", nat d.column)]

/-- A place in the code and where it comes from. -/
def DebugEntry.document (e : DebugEntry) : Document :=
  object [("block", nat e.block), ("pc", nat e.pc), ("span", e.span.document)]

/-- The whole program as data. -/
def Executable.document (e : Executable) : Document :=
  object [("file", option string e.file), ("blocks", array Block.document e.blocks.toList),
    ("dynamic_variables",
      object [("entries", array LateVariable.document e.lateVariables.toList)]),
    ("dynamic_functions",
      object [("entries", array LateFunction.document e.lateFunctions.toList)]),
    ("debug_map", array DebugEntry.document e.debugMap.entries),
    ("diagnostics", array Diagnostic.document e.diagnostics.toList),
    ("watch", array Instruction.document e.watch.toList)]

end Diglot
