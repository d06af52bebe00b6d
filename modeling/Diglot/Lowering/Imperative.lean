import Diglot.Lowering.Declaration
import Diglot.Lowering.Emission
import Diglot.Lowering.Store

/-! # Imperative statements

Statements of an imperative block run in the order of the source. A jump forward is emitted with a
pending target and patched when the code in between is known; `break` and `continue` hand their jumps
to the loop around them.
-/

set_option autoImplicit false

namespace Diglot.Lowering

/-- Lowers a condition into the register that conditional jumps test. -/
def lowerCondition (condition : Node) (span : Span) : Lower Unit := do
  let _ ← expression condition
  let _ ← emitPop (.register .cx) (← classScope) span

/-- Lowers a conditional without an alternative: a failing condition skips the body. -/
def lowerIf (statement : LowerStatement) (body : List Node) (span : Span) : Lower Exits := do
  let branch ← emitJz (.register .cx) span
  let exits ← lowerAll statement body
  patch branch (← pc)
  return exits

/-- Lowers a conditional with an alternative. -/
def lowerIfElse (statement : LowerStatement) (body otherwise : List Node) (span : Span) :
    Lower Exits := do
  let branch ← emitCjmp (.register .cx) ((← pc) + 1) span
  let first ← lowerAll statement body
  let skip ← emitJmp none .nil
  patch branch (← pc)
  let second ← lowerAll statement otherwise
  patch skip (← pc)
  return first.append second

/-- Lowers a loop. `continue` goes back to the condition and `break` behind the loop. -/
def lowerWhile (statement : LowerStatement) (condition : Node) (body : List Node) (span : Span) :
    Lower Unit := do
  let start ← pc
  lowerCondition condition span
  let branch ← emitCjmp (.register .cx) ((← pc) + 1) span
  let exits ← withReader (fun f => { f with inLoop := true }) (lowerAll statement body)
  patchAll exits.continues start
  let _ ← emitJmp (some start) .nil
  let exit ← pc
  patch branch exit
  patchAll exits.breaks exit

/-- Lowers a jump out of the innermost loop, or to its next round. -/
def lowerExit (keyword : String) (span : Span) (exits : Nat → Exits) : Lower Exits := do
  if !(← read).inLoop then
    halt .breakOutsideLoop ("'" ++ keyword ++ "' outside of a loop.") span
  return exits (← emitJmp none span)

/-- Lowers an assignment: the value, then the store. -/
def lowerAssignment (target value : Node) : Lower Unit := do
  modify fun s => { s with lastCallee := none }
  let type ← expression value
  let _ ← assignTo target type

/-- Lowers an expression whose value is not used. -/
def lowerDiscarded (node : Node) : Lower Unit := do
  let _ ← expression node
  let _ ← emitPop (.register .bx) (← classScope) node.span

/-- Lowers a statement that no jump leaves. -/
def plain (m : Lower Unit) : Lower Exits := do
  m
  return .none

/-- Lowers a statement of an imperative block. -/
def imperativeStatement (statement : LowerStatement) (node : Node) : Lower Exits :=
  match node with
  | .assign target value _ => plain (lowerAssignment target value)
  | .ret value span => plain (returnStatement value span)
  | .branch condition body otherwise span => do
    lowerCondition condition span
    if otherwise.isEmpty then lowerIf statement body span
    else lowerIfElse statement body otherwise span
  | .loop condition body span => plain (lowerWhile statement condition body span)
  | .breakLoop span => lowerExit "break" span fun jump => { breaks := [jump] }
  | .continueLoop span => lowerExit "continue" span fun jump => { continues := [jump] }
  | .varDecl v => plain (lowerVariable statement v)
  | .block dialect body span => plain (lowerBlock statement dialect body span)
  | .function f => plain (lowerFunction statement f false)
  | .classDecl c =>
    halt .classOutsideAssociative
      ("Class '" ++ c.name ++ "' must be declared in an associative block.") c.span
  | other => plain (lowerDiscarded other)

end Diglot.Lowering
