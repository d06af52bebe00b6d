import Diglot.Proofs.Mild.Basic
import Diglot.Proofs.Course.Unit

/-! # Expressions are mild

Expressions lowered through two callbacks that do the same do the same themselves, and each of them
emits an instruction.
-/

set_option autoImplicit false

namespace Diglot.Lowering.Mild

variable {α : Type} {inert pushes : Bool}

/-! ## Dependencies -/

theorem core_foldl {add : GraphNode → Segment → GraphNode} (h : ∀ n d, (add n d).core = n.core)
    (l : List Segment) (n : GraphNode) : (l.foldl add n).core = n.core := by
  induction l generalizing n with
  | nil => rfl
  | cons d rest ih => exact (ih _).trans (h n d)

theorem recordRead (path : Path) (viaCall : Bool) :
    Tame false false (recordRead path viaCall) := by
  refine bind read fun f => ite (withState (fun _ => rfl) fun s => ?_) (pure _)
  refine onlyIf (defect _) (ite (bind (note _ _ _) fun _ => modifyNode fun n => ?_) (pure _))
  dsimp only
  split <;> rfl

theorem recordIndexing (literals : List Segment) : Tame false false (recordIndexing literals) := by
  refine bind read fun f => ite (modifyNode fun n => ?_) (pure _)
  refine core_foldl ?_ literals { n with isIndexing := true }
  exact fun _ _ => rfl

theorem recordSplitDims (literals : List Segment) (written : Bool) :
    Tame false false (recordSplitDims literals written) := by
  have hadd (n : GraphNode) (d : Segment) :
      ((if written then GraphNode.addDim else GraphNode.addDependencyDim) n d).core = n.core := by
    split <;> rfl
  refine withSession (fun _ => rfl) fun s => ite ?_ (pure _)
  let add := if written then GraphNode.addDim else GraphNode.addDependencyDim
  refine modifyState (fun s => { s with held := onFirst (literals.foldl add) s.held }) (fun _ => rfl)
    (fun s => ⟨.refl _, rfl, ?_, rfl, nofun, nofun⟩) fun _ => rfl
  cases s.held with
  | nil => rfl
  | cons n rest => exact congrArg (· :: rest.map GraphNode.core) (core_foldl hadd literals n)

/-- Without literals there is nothing to record. -/
theorem recordSplitDims_nil (written : Bool) : Tame inert false (Lowering.recordSplitDims [] written) := by
  refine withSession (fun _ => rfl) fun s => ite ?_ (pure _)
  have hsame : (fun s : State => { s with held := onFirst ([].foldl
      (if written then GraphNode.addDim else GraphNode.addDependencyDim)) s.held }) = id := by
    funext s
    obtain ⟨_, _, held, _, _⟩ := s
    cases held <;> rfl
  have hmodify : Tame inert false (modify (id : State → State) : Lower Unit) :=
    modifyState id (fun _ => rfl) (fun _ => .refl _) fun _ => rfl
  rw [← hsame] at hmodify
  exact hmodify

/-! ## Literals -/

theorem guidesWanted : Tame inert false guidesWanted :=
  bind read fun _ => withSession (fun _ => rfl) fun _ => pure _

theorem literalOperand (kind : LiteralKind) (source : String) (span : Span) :
    Tame inert false (literalOperand kind source span) := by
  unfold Lowering.literalOperand
  split
  · exact defect _
  · split
    · exact bind (report _ _ _) fun _ => pure _
    · exact pure _

theorem lowerLiteral (kind : LiteralKind) (source : String) (span : Span) (expected : Ty) :
    Tame inert pushes (lowerLiteral kind source span expected) := by
  refine withSession (fun _ => rfl) fun s => bind guidesWanted fun on => onlyIf (emitPushIndex _) ?_
  cases kind with
  | string =>
    refine first (bind (forM fun c _ => bind (emitPush _ _ _) fun _ => pure _) fun _ => ?_) fun _ => pure _
    exact first (emitAlloca _ _) fun _ => pure _
  | _ => exact bind (literalOperand _ _ _) fun _ => first (emitPush _ _ _) fun _ => pure _

/-! ## Late-bound names -/

theorem registerLateVariable (name : String) (c : Cursor) :
    Tame inert false (registerLateVariable name c) := by
  have hnew (s : Session) : Tame inert false (openLateVariable name c s) := by
    refine bind read fun f => bind (annotate (fun s => { s with
      lateVariables := s.lateVariables.push
        { name, members := [], function := f.scope.function, classScope := f.scope.classScope } })
      (fun _ => rfl) (fun _ => ⟨rfl, rfl⟩) (fun _ => ⟨rfl, rfl⟩) (fun _ => ⟨rfl, rfl⟩)
      fun _ => ⟨rfl, rfl⟩) fun _ => pure _
  refine withSession (fun _ => rfl) fun s => ?_
  cases c.lateEntry with
  | none => exact hnew s
  | some i =>
    refine ite (bind (annotate (fun s => { s with
      lateVariables := s.lateVariables.modify i fun e => { e with members := e.members ++ [name] } })
      (fun _ => rfl) (fun _ => ⟨rfl, rfl⟩) (fun _ => ⟨rfl, rfl⟩) (fun _ => ⟨rfl, rfl⟩)
      fun _ => ⟨rfl, rfl⟩) fun _ => pure _) (hnew s)

theorem registerLateFunction (name : String) (arity : Nat) :
    Tame inert false (registerLateFunction name arity) := by
  refine withSession (fun _ => rfl) fun s => bind read fun f => bind (annotate (fun s => { s with
    lateFunctions := s.lateFunctions.push
      { name, arity, function := f.scope.function, classScope := f.scope.classScope } })
    (fun _ => rfl) (fun _ => ⟨rfl, rfl⟩) (fun _ => ⟨rfl, rfl⟩) (fun _ => ⟨rfl, rfl⟩)
    fun _ => ⟨rfl, rfl⟩) fun _ => pure _

theorem warnUnbound (name : String) (span : Span) : Tame inert false (warnUnbound name span) := by
  refine withSight (fun v => ?_) fun v => report _ _ _
  simp only [v.visibleNames_erase]

theorem warnFunctionNotFound (name : String) (arity : Nat) (span : Span) :
    Tame inert false (warnFunctionNotFound name arity span) :=
  withSight (fun _ => rfl) fun _ => report _ _ _

/-! ## Segments of a chain -/

theorem chainSegments (node : Node) : Tame inert false (chainSegments node) := by
  unfold Lowering.chainSegments
  split
  · exact pure _
  · exact halt _ _ _

theorem stopChain (c : Cursor) (span : Span) : Tame inert pushes (stopChain c span) :=
  first (emitPush _ _ _) fun _ => pure _

theorem lowerThis (ident : Identifier) (c : Cursor) : Tame inert pushes (lowerThis ident c) := by
  refine bind classScope fun cls => ite ?_ ?_
  · exact first (emitPush _ _ _) fun _ => pure _
  · exact first (emitPushm _ _ _) fun _ => pure _

theorem lowerClassName (ident : Identifier) (c : Cursor) (cls : Nat) :
    Tame inert pushes (lowerClassName ident c cls) := by
  refine ite ?_ ?_
  · exact first (emitPush _ _ _) fun _ => pure _
  · exact first (emitPushm _ _ _) fun _ => pure _

theorem lowerInaccessible (ident : Identifier) (c : Cursor) :
    Tame inert pushes (lowerInaccessible ident c) :=
  bind (report _ _ _) fun _ => withSight (fun _ => rfl) fun _ => stopChain _ _

theorem lowerKnownCall (call : Call) (c : Cursor) (r : ProcRef) :
    Tame inert pushes (lowerKnownCall call c r) := by
  refine first (emitCallTo _ _ _ _) fun _ => withSession (fun _ => rfl) fun s => ?_
  split
  · exact defect _
  · refine onlyIf (modifyState (fun s => { s with lastCallee := some r }) (fun _ => rfl)
      (fun s => ⟨.refl _, rfl, rfl, rfl, fun _ => rfl, fun _ => ⟨.refl _, rfl⟩⟩) fun _ => rfl) (pure _)

theorem lowerLateCall (call : Call) (c : Cursor) : Tame inert pushes (lowerLateCall call c) := by
  refine onlyIf (warnFunctionNotFound _ _ _) (bind (registerLateFunction _ _) fun _ => ?_)
  exact first (emitLateCall _ _ _) fun _ => pure _

theorem unguided {m n : Lower α} (h : Mild inert pushes m n) :
    Mild inert pushes (unguided m) (unguided n) := by
  refine withReader ?_ h
  exact fun _ => rfl

theorem guidedCall {m n : Lower α} (h : Mild inert pushes m n) :
    Mild inert pushes (guidedCall m) (guidedCall n) := by
  refine withSession (fun _ => rfl) fun s => withReader ?_ h
  exact fun _ => rfl

theorem lowerDims_nil (part part' : LowerPart) :
    Mild inert false (lowerDims part []) (lowerDims part' []) := unguided (pure ())

section
variable {part part' : LowerPart} {ident : Identifier}
  (hdims : Mild inert false (lowerDims part ident.dims) (lowerDims part' ident.dims))
  (hsplit : ∀ d, Tame inert false (Lowering.recordSplitDims (literalDims d ident.dims) false))
include hdims

include hsplit in
theorem lowerSymbol (c : Cursor) (r : SymbolRef) :
    Mild inert true (lowerSymbol part ident c r) (lowerSymbol part' ident c r) := by
  refine bind (getSymbol r) fun symbol => ?_
  split
  · exact withSight (fun _ => rfl) fun _ => bind (report _ _ _) fun _ => stopChain _ _
  · refine bind hdims fun _ => bind read fun f => ?_
    refine bind (hsplit _) fun _ => ite ?_ ?_
    · exact first (emitPush _ _ _) fun _ => pure _
    · exact onlyIf (emitPushDims _) (first (emitPushm _ _ _) fun _ => pure _)

theorem lowerLate (c : Cursor) :
    Mild inert true (lowerLate part ident c) (lowerLate part' ident c) := by
  refine onlyIf (warnUnbound _ _) ?_
  refine bind (registerLateVariable _ _) fun p => bind hdims fun _ => ?_
  refine onlyIf (emitPushDims _) ?_
  exact bind classScope fun _ => first (emitPushm _ _ _) fun _ => pure _

include hsplit in
/-- A name in a chain does what its subscripts do. -/
theorem lowerIdentifier (c : Cursor) :
    Mild inert true (lowerIdentifier part ident c) (lowerIdentifier part' ident c) := by
  refine ite (lowerThis _ _) (withSight (fun v => by rw [v.segmentTarget_erase]) fun v => ?_)
  cases v.segmentTarget ident.name c with
  | symbol r => exact lowerSymbol hdims hsplit c r
  | cls id => exact lowerClassName ident c id
  | inaccessible => exact lowerInaccessible ident c
  | arrayReceiver => exact stopChain c ident.span
  | unbound =>
    refine ite ?_ (lowerLate hdims c)
    exact bind (warnUnbound _ _) fun _ => stopChain _ _

end

/-- A name without subscripts declares and records nothing. -/
theorem lowerIdentifier_plain {part : LowerPart} {ident : Identifier} (hplain : ident.dims = []) (c : Cursor) :
    Tame inert true (Lowering.lowerIdentifier part ident c) := by
  refine lowerIdentifier ?_ (fun d => ?_) c <;> rw [hplain]
  · exact lowerDims_nil part part
  · cases d <;> exact recordSplitDims_nil false

section
variable {part part' : LowerPart} (hpart : ∀ n, Mild false true (part n) (part' n))
include hpart

theorem lowerDims (dims : List Node) :
    Mild false false (lowerDims part dims) (lowerDims part' dims) :=
  unguided (forM fun d _ => bind (hpart d).weaken fun _ => pure _)

theorem lowerInvocation (call : Call) (c : Cursor) (target : Option ProcRef) :
    Mild false true (lowerInvocation part call c target) (lowerInvocation part' call c target) := by
  refine bind (forM fun a _ => bind (hpart a).weaken fun _ => pure _) fun _ => ?_
  cases target with
  | some r =>
    refine first (lowerKnownCall call c r) fun p => bind (lowerDims hpart _) fun _ => ?_
    exact onlyIf (emitPushIndex _) (bind read fun _ => pure _)
  | none =>
    refine first (lowerLateCall call c) fun p => bind (lowerDims hpart _) fun _ => ?_
    exact onlyIf (emitPushIndex _) (bind read fun _ => pure _)

theorem lowerResolvedCall (call : Call) (c : Cursor) :
    Mild false true (lowerResolvedCall part call c) (lowerResolvedCall part' call c) := by
  refine withSight (fun _ => rfl) fun v => ?_
  cases v.callTarget call.name call.args.length c with
  | procedure r => exact lowerInvocation hpart call c (some r)
  | unresolved => exact lowerInvocation hpart call c none
  | nonStatic => exact bind (report _ _ _) fun _ => stopChain _ _
  | inaccessible => exact bind (report _ _ _) fun _ => stopChain _ _
  | arrayReceiver => exact stopChain _ _

theorem lowerCall (call : Call) (c : Cursor) :
    Mild false true (lowerCall part call c) (lowerCall part' call c) := by
  refine guidedCall (withSight (fun v => by rw [v.accessedProperty?_erase]) fun v => ?_)
  split
  · exact lowerIdentifier (lowerDims hpart _) (fun _ => recordSplitDims _ _) c
  · exact lowerResolvedCall hpart call c

theorem lowerSegment (isRoot : Bool) (segment : Node) (c : Cursor) :
    Mild false true (lowerSegment part isRoot segment c) (lowerSegment part' isRoot segment c) := by
  unfold Lowering.lowerSegment
  split
  · exact lowerIdentifier (lowerDims hpart _) (fun _ => recordSplitDims _ _) c
  · exact lowerCall hpart _ c
  · exact ite (first (hpart _) fun _ => pure _) (halt _ _ _)

theorem lowerSegments (isRoot : Bool) (segments : List Node) (c : Cursor) :
    Mild false false (lowerSegments part isRoot segments c)
      (lowerSegments part' isRoot segments c) := by
  induction segments generalizing isRoot c with
  | nil => exact pure _
  | cons segment rest ih =>
    exact ite (pure _) (bind (lowerSegment hpart _ _ _).weaken fun c => ih false c)

/-- A chain begins with a segment, which is lowered whatever follows. -/
theorem lowerChain (segments : List Node) (span : Span) :
    Mild false true (lowerChain part segments span) (lowerChain part' segments span) := by
  unfold Lowering.lowerChain
  cases segments with
  | nil => exact defectThen _ _ _
  | cons segment rest =>
    refine bind guidesWanted fun on => onlyIf (emitGuides _) ?_
    refine first (first (lowerSegment hpart _ _ _) fun c => lowerSegments hpart _ _ _) fun c => ?_
    exact onlyIf (emitPushlist _ _ _) (bind (recordRead _ _) fun _ => pure _)

/-! ## Expressions -/

theorem lowerItems (common : Option Ty) (items : List Node) :
    Mild false false (lowerItems part common items) (lowerItems part' common items) := by
  induction items generalizing common with
  | nil => exact pure _
  | cons item rest ih =>
    unfold Lowering.lowerItems
    split
    · exact bind (lowerLiteral _ _ _ _) fun _ => ih _
    · exact bind (hpart _).weaken fun _ => ih _

theorem lowerList (items dims : List Node) (guides : List Guide) :
    Mild false true (lowerList part items dims guides) (lowerList part' items dims guides) := by
  refine bind (unguided (lowerItems hpart _ _)) fun common => first (emitAlloca _ _) fun _ => ?_
  refine bind (lowerDims hpart _) fun _ => onlyIf (emitPushIndex _) ?_
  exact bind guidesWanted fun on => onlyIf (emitGuides _) (pure _)

theorem lowerRange (from_ to_ : Node) (step : Option Node) (span : Span) :
    Mild false true (lowerRange part from_ to_ step span) (lowerRange part' from_ to_ step span) := by
  refine first (hpart _) fun _ => bind (hpart _).weaken fun _ => ?_
  have hrange : Tame false false (do
      let _ ← Lowering.emit (.bare .range) span
      return (⟨some Primitive.var.uid, 1⟩ : Ty)) := bind (emit _ span) fun _ => pure _
  cases step with
  | some step => exact bind (hpart step).weaken fun _ => hrange
  | none => exact bind (emitPush _ _ _) fun _ => hrange

theorem lowerUnary (op : UnaryOperator) (operand : Node) (span : Span) :
    Mild false true (lowerUnary part op operand span) (lowerUnary part' op operand span) := by
  refine first (hpart _) fun _ => bind classScope fun cls => bind (emitPop _ _ _) fun _ => ?_
  exact bind (emit _ span) fun _ => bind (emitPush _ _ _) fun _ => pure _

theorem lowerBinary (left : Node) (op : Operator) (right : Node) (span : Span) :
    Mild false true (lowerBinary part left op right span) (lowerBinary part' left op right span) := by
  unfold Lowering.lowerBinary
  split
  · exact halt _ _ _
  · refine first (hpart _) fun _ => bind (hpart _).weaken fun _ => bind classScope fun cls => ?_
    refine bind (emitPop _ _ _) fun _ => bind (emitPop _ _ _) fun _ => ?_
    exact bind (emit _ span) fun _ => bind (emitPush _ _ _) fun _ => pure _

theorem lowerGroup (inner : Node) (dims : List Node) (guides : List Guide) :
    Mild false true (lowerGroup part inner dims guides) (lowerGroup part' inner dims guides) := by
  refine ite (hpart _) (first (hpart _) fun type => bind (lowerDims hpart _) fun _ => ?_)
  exact onlyIf (emitPushIndex _) (pure _)

theorem lowerNode (node : Node) : Mild false true (lowerNode part node) (lowerNode part' node) := by
  unfold Lowering.lowerNode
  cases node with
  | identifier => exact lowerChain hpart _ _
  | call => exact lowerChain hpart _ _
  | member => exact bind (chainSegments _) fun segments => lowerChain hpart _ _
  | literal => exact lowerLiteral _ _ _ _
  | list => exact lowerList hpart _ _ _
  | range => exact lowerRange hpart _ _ _ _
  | unary => exact lowerUnary hpart _ _ _
  | binary => exact lowerBinary hpart _ _ _ _
  | group => exact lowerGroup hpart _ _ _
  | defaultArg => exact first (emitPush _ _ _) fun _ => pure _
  | dynamic => exact first (emitPush _ _ _) fun _ => pure _
  | _ => exact halt _ _ _

end

theorem expressionWithin (depth : Nat) (node : Node) :
    Tame false true (expressionWithin depth node) := by
  induction depth generalizing node with
  | zero => exact defect _
  | succ depth ih => exact lowerNode ih node

theorem expression (node : Node) : Tame false pushes (expression node) :=
  any (expressionWithin _ node)

/-! ## Parts of statements that are mild

Looking ahead, storing, returning, and the headers of procedures and classes. Where such a part
declares something, it is mild but not inert.
-/

/-! ### Looking ahead -/

theorem declareForward (name : String) : Tame false false (declareForward name) := by
  refine bind read fun f => ite (withSight (fun v => ?_) fun v => ite ?_ (pure _)) (pure _)
  · rw [v.resolve_erase]
    rfl
  · exact bind (allocate _) fun _ => pure _

section
variable {part : ProbePart} (hpart : ∀ n, Tame false false (part n))
include hpart

theorem probeIdentifier (ident : Identifier) : Tame false false (probeIdentifier part ident) :=
  bind (forM fun d _ => hpart d) fun _ => ite (declareForward _) (pure _)

theorem probeSegment (isSingle : Bool) (segment : Node) :
    Tame false false (probeSegment part isSingle segment) := by
  unfold Lowering.probeSegment
  split
  · exact ite (probeIdentifier hpart _) (pure _)
  · exact forM fun a _ => hpart a
  · exact pure _

theorem probeChain (segments : List Node) : Tame false false (probeChain part segments) :=
  onlyIf (defect _) (forM fun n _ => probeSegment hpart _ n)

theorem probeNode (node : Node) : Tame false false (probeNode part node) := by
  unfold Lowering.probeNode
  cases node with
  | identifier => exact probeChain hpart _
  | call => exact probeChain hpart _
  | member => exact bind (chainSegments _) fun _ => probeChain hpart _
  | literal => exact pure _
  | list => exact forM fun n _ => hpart n
  | range => exact bind (hpart _) fun _ => bind (hpart _) fun _ => forM fun n _ => hpart n
  | unary => exact hpart _
  | binary left op right span =>
    dsimp only
    split
    · exact halt _ _ _
    · exact bind (hpart _) fun _ => hpart _
  | group => exact ite (hpart _) (bind (hpart _) fun _ => forM fun n _ => hpart n)
  | defaultArg => exact pure _
  | dynamic => exact pure _
  | _ => exact halt _ _ _

end

theorem probe (node : Node) : Tame false false (probe node) := by
  have h (depth : Nat) : ∀ n, Tame false false (probeWithin depth n) := by
    induction depth with
    | zero => exact fun _ => defect _
    | succ depth ih => exact fun n => probeNode ih n
  exact h _ node

/-! ### Storing -/

theorem targetSymbol (ident : Identifier) (type : Ty) :
    Tame false false (targetSymbol ident type) := by
  refine withSight (fun v => by rw [v.resolve_erase]) fun v => ?_
  cases v.resolve ident.name with
  | found r => exact pure _
  | inaccessible r => exact bind (report _ _ _) fun _ => allocate _
  | unbound => exact allocate _

theorem storeIdentifier (ident : Identifier) (type : Ty) :
    Tame false false (storeIdentifier ident type) := by
  refine bind (targetSymbol _ _) fun r => bind (getSymbol r) fun symbol => ?_
  refine bind (lowerDims (fun n => expression n) _) fun _ => ite ?_ ?_
  · refine bind read fun f => bind (recordIndexing _) fun _ => ?_
    exact bind (recordSplitDims _ _) fun _ => bind (emitStore _ _ _) fun _ => pure _
  · exact bind (emitStore _ _ _) fun _ => pure _

theorem lowerProperty (property : Identifier) (c : Cursor) (resolution : Resolution) (span : Span) :
    Tame inert false (lowerProperty property c resolution span) := by
  cases resolution with
  | found r => exact bind (getSymbol r) fun _ => bind (emitPushm _ _ _) fun _ => pure _
  | inaccessible r => exact bind (report _ _ _) fun _ => bind (emitPush _ _ _) fun _ => pure _
  | unbound =>
    refine onlyIf (warnUnbound _ _) (bind (registerLateVariable _ _) fun p => ?_)
    exact bind classScope fun _ => bind (emitPushm _ _ _) fun _ => pure _

theorem storeProperty (property : Identifier) (c : Cursor) (span : Span) :
    Tame false false (storeProperty property c span) := by
  refine withSight (fun v => ?_) fun v => ?_
  · simp only [v.inClass_erase]
    rfl
  · refine bind (lowerDims (fun n => expression n) _) fun _ => ite ?_ ?_
    · refine bind (recordIndexing _) fun _ => bind (emitPushDims _) fun _ => ?_
      exact bind (lowerProperty _ _ _ _) fun _ => bind (emitPoplist _ _ _) fun _ => pure _
    · exact bind (lowerProperty _ _ _ _) fun _ => bind (emitPoplist _ _ _) fun _ => pure _

theorem storeMember (property : Identifier) (segments : List Node) (span : Span) :
    Tame false false (storeMember property segments span) := by
  have hsegments := lowerSegments (fun n => expression n) false (segments.map Node.unwrap)
    (Cursor.start false)
  refine bind (withReader ?_ hsegments) fun c => withSight (fun _ => rfl) fun v => ?_
  · exact fun _ => rfl
  · refine ite (bind (emitPoplist _ _ _) fun _ => pure _) ?_
    split
    · exact bind (emitCallTo _ _ _ _) fun _ => pure _
    · exact storeProperty _ _ _

theorem storeChain (target : Node) : Tame false false (storeChain target) := by
  refine bind (chainSegments target) fun segments => ?_
  split
  · exact defect _
  · exact storeMember _ _ _
  · exact halt _ _ _

theorem assignTo (target : Node) (type : Ty) : Tame false false (assignTo target type) := by
  unfold Lowering.assignTo
  split
  · exact ite (halt _ _ _) (storeIdentifier _ _)
  · exact storeChain _
  · exact halt _ _ _

theorem refineType (type : Ty) : Tame inert false (refineType type) := by
  refine ite (withSession (fun u => rfl) fun u => withState (fun _ => rfl) fun s => ?_) (pure _)
  split
  · exact pure _
  · exact pure _

/-! ### Returning -/

theorem currentProcedure? : Tame inert false currentProcedure? :=
  withSession (fun _ => rfl) fun _ => bind read fun _ => pure _

theorem lowerReturned (value : Option Node) (span : Span) :
    Tame false pushes (lowerReturned value span) := by
  cases value with
  | some v => exact expression v
  | none => exact first (emitPush _ _ _) fun _ => pure _

theorem checkReturned (procedure : Option Procedure) (type : Ty) (span : Span) :
    Tame inert false (checkReturned procedure type span) := by
  cases procedure with
  | none => exact pure _
  | some p =>
    refine withSession (fun _ => rfl) fun s => ite (bind (report _ _ _) fun _ => ?_) (pure _)
    exact bind (emitPop _ _ _) fun _ => bind (emitPush _ _ _) fun _ => pure _

theorem closeUnit (unit : List Node) : Tame inert false (closeUnit unit) := by
  refine bind read fun f => ite ?_ (ite (pure _) (bind currentProcedure? fun p => ite ?_ ?_))
  · exact bind emitLeave fun _ => pure _
  · exact bind (emitPush _ _ _) fun _ => bind (emitResult _) fun _ => pure _
  · exact bind (emitPush _ _ _) fun _ => bind (emitResult _) fun _ => pure _

/-! ### Headers -/

theorem resolveType (type : TypeName) (span : Span) : Tame inert false (resolveType type span) := by
  refine withSession (fun _ => rfl) fun s => ?_
  split
  · exact pure _
  · exact halt _ _ _

theorem resolveParams (params : List Parameter) : Tame inert false (resolveParams params) := by
  induction params with
  | nil => exact pure _
  | cons p rest ih => exact bind (resolveType _ _) fun _ => bind ih fun _ => pure _

theorem lowerAttributes (attributes : List Call) : Tame inert false (lowerAttributes attributes) := by
  induction attributes with
  | nil => exact pure _
  | cons a rest ih =>
    refine withSession (fun _ => rfl) fun s => ?_
    split
    · exact bind ih fun _ => pure _
    · exact bind (report _ _ _) fun _ => ih

theorem declareParams (params : List Argument) : Tame false false (declareParams params) :=
  forM fun _ _ => bind (allocate _) fun _ => pure _

theorem lowerMembers (members : List Variable) : Tame false false (lowerMembers members) := by
  induction members with
  | nil => exact pure _
  | cons v rest ih => exact bind (resolveType _ _) fun _ => bind (allocate _) fun _ => ih

theorem resolveBase (c : ClassDecl) : Tame inert false (resolveBase c) := by
  unfold Lowering.resolveBase
  split
  · exact pure _
  · refine withSession (fun _ => rfl) fun s => ?_
    split
    · exact pure _
    · exact halt _ _ _

theorem mayDeclareClass : Tame inert false mayDeclareClass :=
  bind read fun _ => withBlock (fun _ => rfl) fun _ => pure _

/-! ### Statements -/

theorem forgetCallee : Tame inert false (modify fun s : State => { s with lastCallee := none }) :=
  modifyState (fun s => { s with lastCallee := none }) (fun _ => rfl)
    (fun _ => ⟨.refl _, rfl, rfl, rfl, fun _ => rfl, fun _ => ⟨.refl _, rfl⟩⟩) fun _ => rfl

theorem lowerCondition (condition : Node) (span : Span) :
    Tame false false (lowerCondition condition span) := by
  refine bind (expression _) fun _ => bind classScope fun _ => ?_
  exact bind (emitPop _ _ _) fun _ => pure _

theorem lowerAssignment (target value : Node) : Tame false false (lowerAssignment target value) :=
  bind forgetCallee fun _ => bind (expression _) fun _ => bind (assignTo _ _) fun _ => pure _

theorem lowerDiscarded (node : Node) : Tame false false (lowerDiscarded node) := by
  refine bind (expression _) fun _ => bind classScope fun _ => ?_
  exact bind (emitPop _ _ _) fun _ => pure _

theorem lowerExit (keyword : String) (span : Span) (exits : Nat → Exits) :
    Tame inert false (lowerExit keyword span exits) := by
  refine bind read fun f => onlyIf (halt _ _ _) ?_
  exact bind (emitStepping _ _ _) fun _ => pure _

theorem lowerWatch (node : Node) : Tame false false (lowerWatch node) := by
  refine bind pc fun _ => bind (expression _) fun _ => bind (nextTemporary _) fun name => ?_
  refine bind (allocate _) fun r => bind (getSymbol r) fun symbol => ?_
  exact bind (emitSilent _ _) fun _ => bind (emit _ _) fun _ => pure _

end Diglot.Lowering.Mild
