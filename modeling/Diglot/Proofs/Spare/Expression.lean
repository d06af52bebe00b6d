import Diglot.Proofs.Spare.Basic

/-! # Expressions spare what is there already

An expression extends a late-bound entry only as long as it lowers the chain that entered it. So the
entry that a cursor points to is never one of those that were there before (`Cursor.IsFresh`), and the
code of an expression, with its arguments and subscripts, preserves whatever endures it.
-/

set_option autoImplicit false

namespace Diglot.Lowering

/-- The entry that the chain extends is none of the first `known` ones. -/
def Cursor.IsFresh (known : Nat) (c : Cursor) : Prop := ∀ i, c.lateEntry = some i → known ≤ i

theorem Cursor.isFresh_start (known : Nat) (isSingle : Bool) : (start isSingle).IsFresh known := nofun

@[simp] theorem Cursor.lateEntry_track (c : Cursor) (x : Segment) :
    (c.track x).lateEntry = c.lateEntry := by
  unfold track
  split <;> rfl

theorem Cursor.IsFresh.track {known : Nat} {c : Cursor} (h : c.IsFresh known) (x : Segment) :
    (c.track x).IsFresh known := by
  unfold IsFresh
  rw [lateEntry_track]
  exact h

namespace Sparing

variable {I : Session → Prop} {f : Frame} {known : Nat}

section
variable (hI : Endures I known f.block)
include hI

/-! ## Dependencies and literals -/

theorem recordRead (path : Path) (viaCall : Bool) : Spares I f (recordRead path viaCall) := by
  refine withFrame (ite (withState fun s => ?_) (pure trivial))
  refine onlyIf (defect _) (ite ?_ (pure trivial))
  exact andThen (note hI _ _ _) fun _ => modifyNode _

omit hI in
theorem recordIndexing (literals : List Segment) : Spares I f (recordIndexing literals) :=
  withFrame (ite (modifyNode _) (pure trivial))

omit hI in
theorem recordSplitDims (literals : List Segment) (written : Bool) :
    Spares I f (recordSplitDims literals written) :=
  withSession fun _ _ => ite (modifyState fun _ => rfl) (pure trivial)

theorem recordSplitChain : Spares I f recordSplitChain := by
  refine andThen sight fun v => withState fun s => andThen (modifyState fun _ => rfl) fun _ => ?_
  split
  · exact pure trivial
  · exact andThen (note hI _ _ _) fun _ => recordRead hI _ _

omit hI in
theorem guidesWanted : Spares I f guidesWanted :=
  withFrame (withSession fun _ _ => pure trivial)

theorem literalOperand (kind : LiteralKind) (source : String) (span : Span) :
    Spares I f (literalOperand kind source span) := by
  unfold Lowering.literalOperand
  split
  · exact defect _
  · split
    · exact andThen (report hI _ _ _) fun _ => pure trivial
    · exact pure trivial

theorem lowerString (source : String) (span : Span) : Spares I f (lowerString source span) := by
  refine andThen (forM fun c _ => andThen (emitPush hI _ _ _) fun _ => pure trivial) fun _ => ?_
  exact andThen (emitAlloca hI _ _) fun _ => pure trivial

theorem lowerLiteral (kind : LiteralKind) (source : String) (span : Span) (expected : Ty) :
    Spares I f (lowerLiteral kind source span expected) := by
  refine withSession fun s _ => andThen guidesWanted fun on => onlyIf (emitPushIndex hI _) ?_
  cases kind with
  | string => exact andThen (lowerString hI _ _) fun _ => pure trivial
  | _ =>
    refine andThen (literalOperand hI _ _ _) fun _ => ?_
    exact andThen (emitPush hI _ _ _) fun _ => pure trivial

/-! ## Late-bound names -/

theorem registerLateVariable (name : String) {c : Cursor} (hc : c.IsFresh known) :
    Sparing I f (registerLateVariable name c) fun r => r.2.IsFresh known := by
  have hnew (s : Session) (hs : I s) : Sparing I f (openLateVariable name c s)
        fun r => r.2.IsFresh known := by
    refine withFrame (andThen (modifySession fun t ht => hI.lateVariable t _ ht) fun _ => pure ?_)
    intro i hi
    cases hi
    exact hI.known s hs
  refine withSession fun s hs => ?_
  cases hentry : c.lateEntry with
  | none => exact hnew s hs
  | some i =>
    refine ite (andThen (modifySession fun t ht => ?_) fun _ => pure hc) (hnew s hs)
    exact hI.lateMember t i _ (hc i hentry) ht

theorem registerLateFunction (name : String) (arity : Nat) :
    Spares I f (registerLateFunction name arity) := by
  refine withSession fun s _ => withFrame (andThen (modifySession fun t ht => ?_) fun _ => ?_)
  · exact hI.lateFunction t _ ht
  · exact pure trivial

theorem warnUnbound (name : String) (span : Span) : Spares I f (warnUnbound name span) :=
  andThen sight fun _ => report hI _ _ _

theorem warnFunctionNotFound (name : String) (arity : Nat) (span : Span) :
    Spares I f (warnFunctionNotFound name arity span) := andThen sight fun _ => report hI _ _ _

/-! ## Segments of a chain -/

theorem chainSegments (node : Node) : Spares I f (chainSegments node) := by
  unfold Lowering.chainSegments
  split
  · exact pure trivial
  · exact halt hI _ _ _

theorem lowerKnownCall (call : Call) (c : Cursor) (r : ProcRef) :
    Spares I f (lowerKnownCall call c r) := by
  refine andThen (emitCallTo hI rfl _ _ _) fun _ => withSession fun s _ => ?_
  split
  · exact defect _
  · exact onlyIf (modifyState fun _ => rfl) (pure trivial)

theorem lowerLateCall (call : Call) (c : Cursor) : Spares I f (lowerLateCall call c) := by
  refine onlyIf (warnFunctionNotFound hI _ _ _) ?_
  refine andThen (registerLateFunction hI _ _) fun _ => ?_
  exact andThen (emitLateCall hI _ _ _) fun _ => pure trivial

variable {c : Cursor} (hc : c.IsFresh known)

section
include hc

theorem stopChain (span : Span) :
    Sparing I f (stopChain c span) fun d => d.IsFresh known :=
  andThen (emitPush hI _ _ _) fun _ => pure hc

theorem lowerThis (ident : Identifier) :
    Sparing I f (lowerThis ident c) fun d => d.IsFresh known := by
  refine andThen classScope fun cls => ?_
  have hd : Cursor.IsFresh known { c with type := objectType cls, depth := c.depth + 1 } := hc
  refine ite ?_ ?_
  · exact andThen (emitPush hI _ _ _) fun _ => pure (hd.track _)
  · exact andThen (emitPushm hI _ _ _) fun _ => pure (hd.track _)

theorem lowerClassName (ident : Identifier) (cls : Nat) :
    Sparing I f (lowerClassName ident c cls) fun d => d.IsFresh known := by
  have hd := hc.track (.ofName ident.name none (some cls))
  refine ite ?_ ?_
  · exact andThen (emitPush hI _ _ _) fun _ => pure hd
  · exact andThen (emitPushm hI _ _ _) fun _ => pure hd

theorem lowerInaccessible (ident : Identifier) :
    Sparing I f (lowerInaccessible ident c) fun d => d.IsFresh known := by
  refine andThen (report hI _ _ _) fun _ => andThen sight fun v => ?_
  apply stopChain hI
  split
  · exact hc.track _
  · exact hc

end

section
variable {part : LowerPart}
  (hpart : ∀ (g : Frame) (n : Node), g.block = f.block → Spares I g (part n))
include hpart

omit hI in
theorem lowerDims (dims : List Node) : Spares I f (lowerDims part dims) := by
  refine withReader (forM fun d _ => ?_)
  exact andThen (hpart _ d rfl) fun _ => pure trivial

include hc

theorem lowerSymbol (ident : Identifier) (r : SymbolRef) :
    Sparing I f (lowerSymbol part ident c r) fun d => d.IsFresh known := by
  refine andThen (getSymbol r) fun symbol => ?_
  split
  · exact andThen sight fun _ => andThen (report hI _ _ _) fun _ => stopChain hI hc _
  · refine andThen (lowerDims hpart _) fun _ => withFrame ?_
    refine andThen (recordSplitDims _ _) fun _ => ite ?_ ?_
    · exact andThen (emitPush hI _ _ _) fun _ => pure (hc.track _)
    · refine onlyIf (emitPushDims hI _) ?_
      exact andThen (emitPushm hI _ _ _) fun _ => pure (hc.track _)

theorem lowerLate (ident : Identifier) :
    Sparing I f (lowerLate part ident c) fun d => d.IsFresh known := by
  refine onlyIf (warnUnbound hI _ _) (bind (registerLateVariable hI _ hc) fun r hr => ?_)
  refine andThen (lowerDims hpart _) fun _ => onlyIf (emitPushDims hI _) ?_
  exact andThen classScope fun _ => andThen (emitPushm hI _ _ _) fun _ => pure hr

theorem lowerIdentifier (ident : Identifier) :
    Sparing I f (lowerIdentifier part ident c) fun d => d.IsFresh known := by
  refine ite (lowerThis hI hc _) (andThen sight fun v => ?_)
  cases v.segmentTarget ident.name c with
  | symbol r => exact lowerSymbol hI hc hpart ident r
  | cls id => exact lowerClassName hI hc ident id
  | inaccessible => exact lowerInaccessible hI hc ident
  | arrayReceiver => exact stopChain hI hc _
  | unbound =>
    refine ite (andThen (warnUnbound hI _ _) fun _ => stopChain hI hc _) ?_
    exact lowerLate hI hc hpart ident

omit hc in
theorem lowerInvocation (call : Call) (target : Option ProcRef) :
    Sparing I f (lowerInvocation part call c target) fun d => d.IsFresh known := by
  refine andThen (forM fun a _ => andThen (hpart f a rfl) fun _ => pure trivial) fun _ => ?_
  have hbehind (type : Ty) (segment : Segment) :
      Sparing I f (finishInvocation part call c target (type, segment)) fun d => d.IsFresh known := by
    refine andThen (lowerDims hpart _) fun _ => onlyIf (emitPushIndex hI _) (withFrame (pure ?_))
    exact nofun
  cases target with
  | some r => exact andThen (lowerKnownCall hI call c r) fun p => hbehind p.1 p.2
  | none => exact andThen (lowerLateCall hI call c) fun p => hbehind p.1 p.2

theorem lowerResolvedCall (call : Call) :
    Sparing I f (lowerResolvedCall part call c) fun d => d.IsFresh known := by
  refine andThen sight fun v => ?_
  cases v.callTarget call.name call.args.length c with
  | procedure r => exact lowerInvocation hI hpart call (some r)
  | unresolved => exact lowerInvocation hI hpart call none
  | nonStatic => exact andThen (report hI _ _ _) fun _ => stopChain hI hc _
  | inaccessible => exact andThen (report hI _ _ _) fun _ => stopChain hI hc _
  | arrayReceiver => exact stopChain hI hc _

end

end

section
variable {part : LowerPart}

theorem lowerCall (hI : Endures I known f.block) {c : Cursor} (hc : c.IsFresh known)
    (hpart : ∀ (g : Frame) (n : Node), g.block = f.block → Spares I g (part n)) (call : Call) :
    Sparing I f (lowerCall part call c) fun d => d.IsFresh known := by
  refine withSession fun s _ => withReader (andThen sight fun v => ?_)
  generalize accessedProperty? v call c = property
  cases property with
  | some property =>
    refine lowerIdentifier ?_ hc ?_ _
    · exact hI
    · exact hpart
  | none =>
    refine lowerResolvedCall ?_ hc ?_ call
    · exact hI
    · exact hpart

variable (hI : Endures I known f.block)
  (hpart : ∀ (g : Frame) (n : Node), g.block = f.block → Spares I g (part n))
include hI hpart

theorem lowerSegment (isRoot : Bool) (segment : Node) {c : Cursor} (hc : c.IsFresh known) :
    Sparing I f (lowerSegment part isRoot segment c) fun d => d.IsFresh known := by
  unfold Lowering.lowerSegment
  split
  · exact lowerIdentifier hI hc hpart _
  · exact lowerCall hI hc hpart _
  · exact ite (andThen (hpart f _ rfl) fun _ => pure hc) (halt hI _ _ _)

theorem lowerSegments (isRoot : Bool) (segments : List Node) {c : Cursor} (hc : c.IsFresh known) :
    Sparing I f (lowerSegments part isRoot segments c) fun d => d.IsFresh known := by
  induction segments generalizing isRoot c with
  | nil => exact pure hc
  | cons segment rest ih =>
    refine ite (pure hc) (bind (lowerSegment hI hpart isRoot segment hc) fun d hd => ?_)
    exact ih false hd

theorem lowerChain (segments : List Node) (span : Span) :
    Spares I f (lowerChain part segments span) := by
  refine onlyIf (defect _) (andThen guidesWanted fun on => onlyIf (emitGuides hI _) ?_)
  refine andThen (lowerSegments hI hpart _ _ (Cursor.isFresh_start _ _)).spares fun c => ?_
  exact onlyIf (emitPushlist hI _ _ _) (andThen (recordRead hI _ _) fun _ => pure trivial)

/-! ## Expressions -/

theorem lowerItems (common : Option Ty) (items : List Node) :
    Spares I f (lowerItems part common items) := by
  induction items generalizing common with
  | nil => exact pure trivial
  | cons item rest ih =>
    unfold Lowering.lowerItems
    split
    · exact andThen (lowerLiteral hI _ _ _ _) fun _ => ih _
    · exact andThen (hpart f _ rfl) fun _ => ih _

theorem lowerList (items dims : List Node) (guides : List Guide) :
    Spares I f (lowerList part items dims guides) := by
  have hitems : Spares I { f with isGuided := false } (Lowering.lowerItems part none items) :=
    lowerItems (f := { f with isGuided := false }) hI hpart none items
  refine andThen (withReader hitems) fun common => andThen (emitAlloca hI _ _) fun _ => ?_
  refine andThen (lowerDims hpart _) fun _ => onlyIf (emitPushIndex hI _) ?_
  exact andThen guidesWanted fun on => onlyIf (emitGuides hI _) (pure trivial)

theorem lowerRange (first last : Node) (step : Option Node) (span : Span) :
    Spares I f (lowerRange part first last step span) := by
  refine andThen (hpart f _ rfl) fun _ => andThen (hpart f _ rfl) fun _ => ?_
  have hrange : Spares I f (do
      let _ ← Lowering.emit (.bare .range) span
      return (⟨some Primitive.var.uid, 1⟩ : Ty)) := andThen (emit hI rfl _) fun _ => pure trivial
  cases step with
  | some step => exact andThen (hpart f step rfl) fun _ => hrange
  | none => exact andThen (emitPush hI _ _ _) fun _ => hrange

theorem lowerUnary (op : UnaryOperator) (operand : Node) (span : Span) :
    Spares I f (lowerUnary part op operand span) := by
  refine andThen (hpart f _ rfl) fun _ => andThen classScope fun cls => ?_
  refine andThen (emitPop hI _ _ _) fun _ => andThen (emit hI (OpCode.isAlloc_ofUnary op) _) fun _ => ?_
  exact andThen (emitPush hI _ _ _) fun _ => pure trivial

theorem lowerBinary (left : Node) (op : Operator) (right : Node) (span : Span) :
    Spares I f (lowerBinary part left op right span) := by
  unfold Lowering.lowerBinary
  split
  · exact halt hI _ _ _
  · next opcode hop =>
    refine andThen (hpart f _ rfl) fun _ => andThen (hpart f _ rfl) fun _ => ?_
    refine andThen classScope fun cls => andThen (emitPop hI _ _ _) fun _ => ?_
    refine andThen (emitPop hI _ _ _) fun _ => andThen (emit hI (OpCode.isAlloc_ofBinary hop) _) fun _ => ?_
    exact andThen (emitPush hI _ _ _) fun _ => pure trivial

theorem lowerGroup (inner : Node) (dims : List Node) (guides : List Guide) :
    Spares I f (lowerGroup part inner dims guides) := by
  refine ite (hpart f _ rfl) (andThen (hpart f _ rfl) fun type => ?_)
  exact andThen (lowerDims hpart _) fun _ => onlyIf (emitPushIndex hI _) (pure trivial)

theorem lowerNode (node : Node) : Spares I f (lowerNode part node) := by
  unfold Lowering.lowerNode
  cases node with
  | identifier => exact lowerChain hI hpart _ _
  | call => exact lowerChain hI hpart _ _
  | member => exact andThen (chainSegments hI _) fun segments => lowerChain hI hpart _ _
  | literal => exact lowerLiteral hI _ _ _ _
  | list => exact lowerList hI hpart _ _ _
  | range => exact lowerRange hI hpart _ _ _ _
  | unary => exact lowerUnary hI hpart _ _ _
  | binary => exact lowerBinary hI hpart _ _ _ _
  | group => exact lowerGroup hI hpart _ _ _
  | defaultArg => exact andThen (emitPush hI _ _ _) fun _ => pure trivial
  | dynamic => exact andThen (emitPush hI _ _ _) fun _ => pure trivial
  | _ => exact halt hI _ _ _

end

theorem expressionWithin {known : Nat} (depth : Nat) (node : Node)
    (hI : Endures I known f.block) : Spares I f (expressionWithin depth node) := by
  induction depth generalizing f node with
  | zero => exact defect _
  | succ depth ih => exact lowerNode hI (fun g n hg => ih n (hg ▸ hI)) node

/-- The code of an expression preserves whatever endures what it does. -/
theorem expression (node : Node) (hI : Endures I known f.block) : Spares I f (expression node) :=
  expressionWithin _ node hI

end Sparing

/-! ## Declarations and stores that spare what is there

Probing, storing and returning declare variables and emit code. Whatever code of expressions spares, they
spare as well, if it survives what a statement does besides (`Hosts`). Only names that stand for nothing
are declared, and of these it has to survive that they get a variable.
-/

/-- The code of a block stays as it is, or a jump in it is patched. -/
def Patches (b c : Block) : Prop :=
  c.code = b.code ∨ ∃ pending target i j, b.code[pending]? = some i ∧ i.patch target = .ok j ∧
    c.code = b.code.setIfInBounds pending j

/-- `I` survives what statements do besides declaring: their code, and the nodes that they become. -/
structure Carries (I : Session → Prop) (known : Nat) (f : Frame) : Prop where
  endures : Endures I known f.block
  isWatching : ∀ s, I s → s.isWatching = false
  uid : ∀ s nextUid, I s → I { s with nextUid }
  code : ∀ s k, (∀ b : Block, (k b).header = b.header ∧ (k b).kind = b.kind) →
    (∀ b, s.block? f.block = some b → Patches b (k b)) → I s → I (s.modifyBlock f.block k)

/-- `I` survives statements that declare nothing on the heap, and no other names than those that are free. The frame may be any
one of the same site. -/
structure Hosts (I : Session → Prop) (known : Nat) (free : String → Prop) (f : Frame) : Prop
    extends Carries I known f where
  temporaries : ∀ s n, I s → I { s with counters := { s.counters with temporaries := n } }
  unseen : ∀ h s v name, h.site = f.site → I s → sightIn h s = .ok v →
    (∀ r, v.resolve name ≠ .found r) → free name
  allocate : ∀ h d, h.site = f.site → d.region = .stack → free d.name → Spares I h (allocate d)

variable {I : Session → Prop} {known : Nat} {free : String → Prop} {f : Frame}

/-- What the parts of a statement change in their frame does not matter. -/
theorem Hosts.flags (hf : Hosts I known free f) {h : Frame} (hsite : h.site = f.site) :
    Hosts I known free h := by
  have hblock := congrArg Frame.block hsite
  change h.block = f.block at hblock
  refine ⟨⟨hblock ▸ hf.endures, hf.isWatching, hf.uid, hblock ▸ hf.code⟩, hf.temporaries, ?_, ?_⟩
  · exact fun k s v name hk => hf.unseen k s v name (hk.trans hsite)
  · exact fun k d hk => hf.allocate k d (hk.trans hsite)

namespace Sparing

theorem nextTemporary (hf : Hosts I known free f) (letters : String) :
    Spares I f (nextTemporary letters) :=
  withSession fun _ _ => andThen (modifySession fun t ht => hf.temporaries t _ ht) fun _ => pure trivial

/-! ### Probing and storing -/

theorem declareForward (hf : Hosts I known free f) (name : String) :
    Spares I f (declareForward name) := by
  refine withFrame (ite (withSight fun s v hs hv => ?_) (pure trivial))
  split
  · next hcond =>
    have hunbound : v.resolve name = .unbound := by
      simp only [Bool.and_eq_true, decide_eq_true_eq] at hcond
      exact hcond.1
    have hfree : free name := by
      apply hf.unseen f s v name rfl hs hv
      intro r hr
      rw [hunbound] at hr
      cases hr
    exact andThen (hf.allocate f _ rfl rfl hfree) fun _ => pure trivial
  · exact pure trivial

section
variable (hI : Endures I known f.block) (hdeclare : ∀ name, Spares I f (Lowering.declareForward name))
  {part : ProbePart} (hpart : ∀ n, Spares I f (part n))

section
include hdeclare hpart

theorem probeIdentifier (ident : Identifier) : Spares I f (probeIdentifier part ident) := by
  refine andThen (forM fun n _ => hpart n) fun _ => ite (hdeclare _) (pure trivial)

theorem probeChain (segments : List Node) : Spares I f (probeChain part segments) := by
  refine onlyIf (defect _) (forM fun n _ => ?_)
  unfold probeSegment
  split
  · exact ite (probeIdentifier hdeclare hpart _) (pure trivial)
  · exact forM fun n _ => hpart n
  · exact pure trivial

end

include hI hdeclare

theorem probeNode (hpart : ∀ n, Spares I f (part n)) (node : Node) : Spares I f (probeNode part node) := by
  unfold Lowering.probeNode
  split
  · exact probeChain hdeclare hpart _
  · exact probeChain hdeclare hpart _
  · exact andThen (chainSegments hI _) fun segments => probeChain hdeclare hpart _
  · exact pure trivial
  · exact forM fun n _ => hpart n
  · exact andThen (hpart _) fun _ => andThen (hpart _) fun _ => forM fun n _ => hpart n
  · exact hpart _
  · split
    · exact halt hI _ _ _
    · exact andThen (hpart _) fun _ => hpart _
  · exact ite (hpart _) (andThen (hpart _) fun _ => forM fun n _ => hpart n)
  · exact pure trivial
  · exact pure trivial
  · exact halt hI _ _ _

/-- Looking ahead spares what declaring a name spares. -/
theorem probeDeclaring (node : Node) : Spares I f (Lowering.probe node) := by
  have hwithin (depth : Nat) (n : Node) : Spares I f (probeWithin depth n) := by
    induction depth generalizing n with
    | zero => exact defect _
    | succ depth ih => exact probeNode hI hdeclare ih n
  exact hwithin _ node

end

theorem probe (hf : Hosts I known free f) (node : Node) : Spares I f (probe node) :=
  probeDeclaring hf.endures (declareForward hf) node

theorem anyExpression (hI : Endures I known f.block) (h : Frame) (n : Node) (hblock : h.block = f.block) :
    Spares I h (Lowering.expression n) :=
  expression n (hblock ▸ hI)

theorem targetSymbol (hf : Hosts I known free f) (ident : Identifier) (type : Ty) :
    Spares I f (targetSymbol ident type) := by
  refine withSight fun s v hs hv => ?_
  have hfree (h : ∀ r, v.resolve ident.name ≠ .found r) : free ident.name :=
    hf.unseen f s v ident.name rfl hs hv h
  split
  · exact pure trivial
  · next hr => exact andThen (report hf.endures _ _ _) fun _ => hf.allocate f _ rfl rfl (hfree (by simp [hr]))
  · next hr => exact hf.allocate f _ rfl rfl (hfree (by simp [hr]))

section
variable (hI : Endures I known f.block)
include hI

theorem storeIdentifier (ident : Identifier) (type : Ty) (htarget : Spares I f (Lowering.targetSymbol ident type)) :
    Spares I f (storeIdentifier ident type) := by
  refine andThen htarget fun r => andThen (getSymbol r) fun symbol => ?_
  refine andThen (lowerDims (anyExpression hI) _) fun _ => ite (withFrame ?_) ?_
  · refine andThen (recordIndexing _) fun _ => andThen (recordSplitDims _ _) fun _ => ?_
    exact andThen (emitStore hI _ _ _) fun _ => pure trivial
  · exact andThen (emitStore hI _ _ _) fun _ => pure trivial

theorem lowerProperty (property : Identifier) {c : Cursor} (hc : c.IsFresh known)
    (resolution : Resolution) (span : Span) :
    Spares I f (lowerProperty property c resolution span) := by
  unfold Lowering.lowerProperty
  split
  · exact andThen (getSymbol _) fun _ => andThen (emitPushm hI _ _ _) fun _ => pure trivial
  · exact andThen (report hI _ _ _) fun _ => andThen (emitPush hI _ _ _) fun _ => pure trivial
  · refine onlyIf (warnUnbound hI _ _) (andThen (registerLateVariable hI _ hc).spares fun r => ?_)
    exact andThen classScope fun _ => andThen (emitPushm hI _ _ _) fun _ => pure trivial

theorem storeProperty (property : Identifier) {c : Cursor} (hc : c.IsFresh known)
    (span : Span) : Spares I f (storeProperty property c span) := by
  refine andThen sight fun v => andThen (lowerDims (anyExpression hI) _) fun _ => ?_
  have hrest (resolution : Resolution) : Spares I f (do
      let c ← Lowering.lowerProperty property c resolution span
      let _ ← Lowering.emitPoplist (c.depth + 1) v.frame.scope.classScope span
      return c.path) := by
    refine andThen (lowerProperty hI _ hc _ _) fun d => ?_
    exact andThen (emitPoplist hI _ _ _) fun _ => pure trivial
  refine ite ?_ (hrest _)
  exact andThen (recordIndexing _) fun _ => andThen (emitPushDims hI _) fun _ => hrest _

theorem storeMember (property : Identifier) (segments : List Node) (span : Span) :
    Spares I f (storeMember property segments span) := by
  have hsegments : Sparing I f
      (untracked (Lowering.lowerSegments Lowering.expression false (segments.map Node.unwrap)
        (.start false))) fun c => c.IsFresh known :=
    withReader (lowerSegments (f := { f with isTracked := false }) hI
      (fun h n hblock => anyExpression hI h n hblock) false _ (Cursor.isFresh_start _ _))
  refine bind hsegments fun c hc => andThen sight fun v => ite ?_ ?_
  · exact andThen (emitPoplist hI _ _ _) fun _ => pure trivial
  · split
    · exact andThen (emitCallTo hI rfl _ _ _) fun _ => pure trivial
    · exact storeProperty hI _ hc _

/-- A store spares what finding the target spares, if that is a plain name. -/
theorem assignFound (target : Node) (type : Ty)
    (htarget : ∀ ident, target = .identifier ident → Spares I f (Lowering.targetSymbol ident type)) :
    Spares I f (Lowering.assignTo target type) := by
  unfold Lowering.assignTo
  split
  · exact ite (halt hI _ _ _) (storeIdentifier hI _ _ (htarget _ rfl))
  · refine andThen (chainSegments hI _) fun segments => ?_
    split
    · exact defect _
    · exact storeMember hI _ _ _
    · exact halt hI _ _ _
  · exact halt hI _ _ _

/-! ### Returning -/

theorem lowerReturned (value : Option Node) (span : Span) : Spares I f (lowerReturned value span) := by
  unfold Lowering.lowerReturned
  split
  · exact expression _ hI
  · exact andThen (emitPush hI _ _ _) fun _ => pure trivial

theorem checkReturned (procedure : Option Procedure) (type : Ty) (span : Span) :
    Spares I f (checkReturned procedure type span) := by
  unfold Lowering.checkReturned
  split
  · exact pure trivial
  · refine withSession fun s _ => ite (andThen (report hI _ _ _) fun _ => ?_) (pure trivial)
    refine andThen (emitPop hI _ _ _) fun _ => ?_
    exact andThen (emitPush hI _ _ _) fun _ => pure trivial

theorem returnStatement (value : Option Node) (span : Span) :
    Spares I f (returnStatement value span) := by
  have hrest (procedure : Option Procedure) : Spares I f (finishReturn value span procedure) := by
    refine andThen pc fun _ => andThen (lowerReturned hI _ _) fun type => andThen pc fun _ => ?_
    refine andThen (modifyNode _) fun _ => andThen (checkReturned hI _ _ _) fun _ => ?_
    exact andThen (emitResult hI _) fun _ => pure trivial
  refine andThen (withSession fun _ _ => withFrame (pure trivial)) fun procedure => ?_
  split
  · exact ite (andThen (halt hI _ _ _) fun _ => hrest _) (hrest _)
  · exact hrest _

theorem closeUnit (unit : List Node) : Spares I f (closeUnit unit) := by
  refine withFrame (ite (andThen (emitLeave hI) fun _ => pure trivial) (ite (pure trivial) ?_))
  refine andThen (withSession fun _ _ => withFrame (pure trivial)) fun procedure => ite ?_ ?_
  · refine andThen (emitPush hI _ _ _) fun _ => ?_
    exact andThen (emitResult hI _) fun _ => pure trivial
  · refine andThen (emitPush hI _ _ _) fun _ => ?_
    exact andThen (emitResult hI _) fun _ => pure trivial

end

theorem assignTo (hf : Hosts I known free f) (target : Node) (type : Ty) : Spares I f (assignTo target type) :=
  assignFound hf.endures target type fun ident _ => targetSymbol hf ident type

end Sparing

end Diglot.Lowering
