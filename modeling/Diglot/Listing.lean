import Diglot.Compile

/-! # Listings

The program as text for people: one line for each symbol, instruction and dependency node, indented
by four blanks for each level.
-/

set_option autoImplicit false

namespace Diglot

/-- A line at a level of indentation. -/
def indented (level : Nat) (line : String) : String :=
  String.join (List.replicate level "    ") ++ line ++ "\n"

/-- A heading with its items one level deeper; nothing without items. -/
def titled (level : Nat) (heading : String) (items : List String) : String :=
  if items.isEmpty then ""
  else String.join (indented level heading :: items.map (indented (level + 1)))

/-- Numbers the elements of a list from zero. -/
def numbered {α β : Type} (f : Nat → α → β) (items : List α) : List β :=
  items.zipIdx.map fun (a, i) => f i a

/-- The symbol with its position, type and place. -/
def Symbol.listing (s : Symbol) : String :=
  toString s.position ++ ": " ++ s.name ++ " " ++ s.type.text ++ " @" ++ toString s.offset

namespace Block

/-- The instruction with its place. -/
def instructionListing (b : Block) (pc : Nat) (i : Instruction) : String :=
  "[" ++ b.dialect.letter.toString ++ "." ++ toString b.id ++ "." ++ toString pc ++ "] " ++ i.text

/-- The block from its heading on; the heading itself is not indented. -/
def listingAt (b : Block) (level : Nat) : String :=
  let line := indented (level + 1)
  String.join [
    b.dialect.name ++ " block" ++ toString b.id ++ " \x7b\n",
    line ("kind: " ++ b.kind.name),
    match b.parent with
    | some p => line ("parent: block" ++ toString p)
    | none => "",
    match b.entry with
    | some e => line ("entry: " ++ toString e)
    | none => "",
    titled (level + 1) "symbols:" (b.symbols.symbols.toList.map Symbol.listing),
    titled (level + 1) "instructions:" (numbered b.instructionListing b.code.toList),
    titled (level + 1) "graph:" (b.graph.toList.map GraphNode.text),
    indented level "\x7d"]

/-- The block on its own. -/
def listing (b : Block) : String := b.listingAt 0

end Block

namespace Executable

/-- The whole program. -/
def listing (e : Executable) : String :=
  String.join [
    "Executable \x7b\n",
    match e.file with
    | some f => indented 1 ("file: " ++ Text.quoted f)
    | none => "",
    String.join (e.blocks.toList.map fun b => "    " ++ b.listingAt 1),
    titled 1 "dynamic variables:"
      (numbered (fun i v => "dyn" ++ toString i ++ ": " ++ v.path) e.lateVariables.toList),
    titled 1 "dynamic functions:"
      (numbered (fun i f => "dyn" ++ toString i ++ ": " ++ f.name ++ "/" ++ toString f.arity)
        e.lateFunctions.toList),
    titled 1 "watch:"
      (numbered (fun pc i => "[w." ++ toString pc ++ "] " ++ i.text) e.watch.toList),
    "\x7d\n"]

end Executable

end Diglot
