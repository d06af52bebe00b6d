import Diglot.Proofs.Reads.Tracking

/-! # The dependencies of a statement are the variables that its value reads

`recording` lowers an expression like `expression` does (`expression_recording`), and remembers every
expression that is lowered on the way: operands, items, bounds, the insides of groups, arguments and
subscripts. `lowered` tells what it remembered.

The node of a statement depends on a symbol if and only if one of these is a chain that begins at it
(`expression_reads`).
-/

set_option autoImplicit false

namespace Diglot.Lowering

/-! ## What is lowered on the way -/

/-- Lowers an expression of at most the given depth and remembers all that is lowered. -/
def recordingWithin : Nat → Node → Lower Ty
  | 0, _ => defect .depthExceeded
  | depth + 1, node => do
    pushPointers [node]
    lowerNode (recordingWithin depth) node

def recording (node : Node) : Lower Ty := recordingWithin node.weight node

/-- The expressions that are lowered in the course of an expression, itself included. -/
def lowered (node : Node) (f : Frame) (s : State) : List Node :=
  (ending (recording node f { s with pointers := [] })).pointers

/-- What code of a frame sees. -/
def sightFrom (f : Frame) (s : Session) : Sight := ⟨s, f, (s.enclosing? f.block).getD []⟩

theorem mild_recordingWithin (depth : Nat) (node : Node) :
    Mild false true (expressionWithin depth node) (recordingWithin depth node) := by
  induction depth generalizing node with
  | zero => exact .defect _
  | succ depth ih =>
    have hnode : Mild false true (lowerNode (expressionWithin depth) node)
        (lowerNode (recordingWithin depth) node) := .lowerNode ih node
    refine ⟨fun f s t hst => ?_, fun f s t hst => ?_, hnode.keeps, hnode.emits⟩
    · exact hnode.alike f s { t with pointers := t.pointers ++ [node] } hst
    · exact hnode.same f s { t with pointers := t.pointers ++ [node] } hst

theorem expression_recording (node : Node) (f : Frame) (s : State) :
    seen State.bare (recording node f { s with pointers := [] }) =
      seen State.bare (expression node f s) :=
  ((mild_recordingWithin node.weight node).alike f s { s with pointers := [] } rfl).symm

/-! ## Expressions -/

namespace Tracks

variable {v : Sight}

section
variable {part : LowerPart} (hpart : ∀ n, Tracks v none (part n) fun _ => True)
include hpart

theorem lowerItems (common : Option Ty) (items : List Node) :
    Tracks v none (lowerItems part common items) fun _ => True := by
  induction items generalizing common with
  | nil => exact pure trivial
  | cons item rest ih =>
    unfold Lowering.lowerItems
    split
    · exact after (.lowerLiteral _ _ _ _) fun _ => ih _
    · exact bind (hpart _) fun _ _ => ih _

theorem lowerList (items dims : List Node) (guides : List Guide) :
    Tracks v none (lowerList part items dims guides) fun _ => True := by
  have hguides (type : Ty) : Tracks v none (do
      if ← guidesWanted then emitGuides guides
      return type) fun _ => True :=
    after .guidesWanted fun on => ite (after (.emitGuides _) fun _ => pure trivial) (pure trivial)
  refine bind (unguided (lowerItems hpart _ _)) fun common _ => after (.emitAlloca _ _) fun _ => ?_
  refine bind (lowerDims hpart _) fun _ _ => ite (after (.emitPushIndex _) fun _ => ?_) ?_
  · exact hguides _
  · exact hguides _

theorem lowerRange (first last : Node) (step : Option Node) (span : Span) :
    Tracks v none (lowerRange part first last step span) fun _ => True := by
  have hrange : Tracks v none (do
      let _ ← emit (.bare .range) span
      return (⟨some Primitive.var.uid, 1⟩ : Ty)) fun _ => True :=
    after (.emit _ span) fun _ => pure trivial
  refine bind (hpart _) fun _ _ => bind (hpart _) fun _ _ => ?_
  cases step with
  | some step => exact bind (hpart step) fun _ _ => hrange
  | none => exact after (.emitPush _ _ _) fun _ => hrange

theorem lowerUnary (op : UnaryOperator) (operand : Node) (span : Span) :
    Tracks v none (lowerUnary part op operand span) fun _ => True := by
  refine bind (hpart _) fun _ _ => after .classScope fun cls => after (.emitPop _ _ _) fun _ => ?_
  exact after (.emit _ span) fun _ => after (.emitPush _ _ _) fun _ => pure trivial

theorem lowerBinary (left : Node) (op : Operator) (right : Node) (span : Span) :
    Tracks v none (lowerBinary part left op right span) fun _ => True := by
  unfold Lowering.lowerBinary
  split
  · exact halt _ _ _
  · refine bind (hpart _) fun _ _ => bind (hpart _) fun _ _ => after .classScope fun cls => ?_
    refine after (.emitPop _ _ _) fun _ => after (.emitPop _ _ _) fun _ => ?_
    exact after (.emit _ span) fun _ => after (.emitPush _ _ _) fun _ => pure trivial

theorem lowerGroup (inner : Node) (dims : List Node) (guides : List Guide) :
    Tracks v none (lowerGroup part inner dims guides) fun _ => True := by
  refine ite (hpart _) (bind (hpart _) fun type _ => bind (lowerDims hpart _) fun _ _ => ?_)
  exact ite (after (.emitPushIndex _) fun _ => pure trivial) (pure trivial)

/-- An expression gains the symbol that it begins at, if it is a chain, and all that its parts gain. -/
theorem lowerNode (hv : v.LooksAround) (node : Node) :
    Tracks v (v.readBy? node) (lowerNode part node) fun _ => True := by
  cases node with
  | identifier ident => exact lowerChain hv hpart (.identifier ident) [] ident.span
  | call call => exact lowerChain hv hpart (.call call) [] call.span
  | member left right op lastFactor span =>
    change Tracks v _ (chainSegments _ >>= fun segments => Lowering.lowerChain part segments span) _
    unfold chainSegments Sight.readBy? Node.rootSegment?
    cases (Node.member left right op lastFactor span).segments with
    | error e => exact fun _ _ _ _ _ hrun => by cases hrun
    | ok segments =>
      cases segments with
      | nil => exact fun _ _ _ _ _ hrun => by cases hrun
      | cons first rest => exact lowerChain hv hpart first rest span
  | literal => exact inert (.lowerLiteral _ _ _ _)
  | list => exact lowerList hpart _ _ _
  | range => exact lowerRange hpart _ _ _ _
  | unary => exact lowerUnary hpart _ _ _
  | binary => exact lowerBinary hpart _ _ _ _
  | group => exact lowerGroup hpart _ _ _
  | defaultArg => exact after (.emitPush _ _ _) fun _ => pure trivial
  | dynamic => exact after (.emitPush _ _ _) fun _ => pure trivial
  | _ => exact halt _ _ _

end

theorem recordingWithin (hv : v.LooksAround) (depth : Nat) (node : Node) :
    Tracks v none (recordingWithin depth node) fun _ => True := by
  induction depth generalizing node with
  | zero => exact throw _
  | succ depth ih =>
    intro b s a t hs hrun
    obtain ⟨hnames, -, parts, hparts, hreads⟩ := lowerNode ih hv node b
      { s with pointers := s.pointers ++ [node] } a t hs hrun
    refine ⟨hnames, trivial, node :: parts, by simp [hparts], fun r => ?_⟩
    simp only [hreads, List.mem_cons, exists_eq_or_imp, reduceCtorEq, false_or]

end Tracks

/-- The dependencies of a statement are the variables that its value reads. If the value is lowered with
a fresh node, then the node has a dependency that begins at a symbol if and only if a chain was lowered
whose first name stands for the symbol, be it a member that may not be used. Remembering what is lowered
is the same run but for the memory. -/
theorem expression_reads {value : Node} {f : Frame} {s t : State} {type : Ty}
    (htracked : f.isTracked = true) (hfresh : s.node.dependencies = [])
    (hrun : expression value f s = .ok type t) :
    seen State.bare (recording value f { s with pointers := [] }) = .ok type t.bare ∧
      ∀ r, (∃ p ∈ t.node.dependencies, p.rootSymbol? = some r) ↔
        ∃ n ∈ lowered value f s, (sightFrom f s.session).readBy? n = some r := by
  have hsame := expression_recording value f s
  rw [hrun] at hsame
  refine ⟨hsame, fun r => ?_⟩
  cases hrecord : recording value f { s with pointers := [] } with
  | error e u =>
    rw [hrecord] at hsame
    cases hsame
  | ok a u =>
    rw [hrecord] at hsame
    have hnode := congrArg State.node (EStateM.Result.ok.inj hsame).2
    change u.node = t.node at hnode
    obtain ⟨-, -, parts, hparts, hreads⟩ :=
      Tracks.recordingWithin (v := sightFrom f s.session) ⟨rfl⟩ value.weight value
        f.isGuided { s with pointers := [] } a u (.refl _) hrecord
    have hlowered : lowered value f s = parts := by
      unfold lowered
      rw [hrecord]
      exact hparts
    rw [hlowered, ← hnode]
    refine (hreads r).trans ?_
    simp [GraphNode.Reads, hfresh, sightFrom, htracked]

/-- A session with the variables `x` and `y`, and a statement that is about to be lowered. -/
def sampleState : State :=
  let name (x : String) : Node := .identifier (.plain x .nil)
  let one : Node := .literal .int "1" .nil
  { session := ((Session.new {}).compile [.assignment (name "x") one, .assignment (name "y") one]
      .associative).2 }

/-- The frame of a statement whose reads are recorded. -/
def sampleFrame : Frame := { block := 0, scope := .global, dialect := .associative, isTracked := true }

/-- The value `x[y] + f(y.m)`, in which nothing is known of `f` and `m`. -/
def sampleValue : Node :=
  let y : Node := .identifier (.plain "y" .nil)
  .binary (.identifier ⟨"x", [y], [], .nil⟩) .add
    (.call ⟨"f", [.join y (.identifier (.plain "m" .nil))], [], [], .nil⟩) .nil

/-- Four chains are lowered, three of which begin at a variable, and these are the dependencies. -/
theorem sampleValue_reads :
    ∃ type t, expression sampleValue sampleFrame sampleState = .ok type t ∧
      ((lowered sampleValue sampleFrame sampleState).filterMap
        (sightFrom sampleFrame sampleState.session).readBy?) =
          [⟨.block 0, 0⟩, ⟨.block 0, 1⟩, ⟨.block 0, 1⟩] ∧
      ∀ r, (∃ p ∈ t.node.dependencies, p.rootSymbol? = some r) ↔
        ∃ n ∈ lowered sampleValue sampleFrame sampleState,
          (sightFrom sampleFrame sampleState.session).readBy? n = some r := by
  have hends : (match expression sampleValue sampleFrame sampleState with
      | .ok _ _ => true
      | .error _ _ => false) = true := by decide +kernel
  cases hrun : expression sampleValue sampleFrame sampleState with
  | error e t =>
    rw [hrun] at hends
    cases hends
  | ok type t =>
    exact ⟨type, t, rfl, by decide +kernel, (expression_reads rfl rfl hrun).2⟩

end Diglot.Lowering
