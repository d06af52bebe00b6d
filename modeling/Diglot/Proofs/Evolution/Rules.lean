import Diglot.Proofs.Evolution.Basic

/-! # Rules of lowering

A property of steps that is kept when steps are put together holds of all lowering if the primitive steps have it.

* `QuietRule P`: `P` is such a property, and what reads, records, reports, declares and commits has it. So has what
  emits nothing (`QuietRule.probe`).
* `StraightRule P`: so has what emits an instruction behind which control goes on. The code of expressions, of stores,
  and of returns up to their last instruction is made up of these (`StraightRule.lowerUpdate`).
* `StatementRule P`: so has what jumps, leaves and patches, and what has code of its own lowered elsewhere. So has
  every statement (`StatementRule.statement`).
-/

set_option autoImplicit false

namespace Diglot

/-! ## Straight code -/

/-- Control goes on at the next instruction. -/
def OpCode.IsStraight (op : OpCode) : Prop := op.isJump = false ∧ op ≠ .ret ∧ op ≠ .retb

instance (op : OpCode) : Decidable op.IsStraight := inferInstanceAs (Decidable (_ ∧ _ ∧ _))

/-- Control goes on at the next instruction of the same code. -/
def OpCode.IsPlain (op : OpCode) : Prop := op.IsStraight ∧ op ≠ .retcn

instance (op : OpCode) : Decidable op.IsPlain := inferInstanceAs (Decidable (_ ∧ _))

theorem OpCode.isPlain_ofUnary (op : UnaryOperator) : (OpCode.ofUnary op).IsPlain := by
  cases op <;> decide

theorem OpCode.isPlain_ofBinary {op : Operator} {opcode : OpCode}
    (h : OpCode.ofBinary? op = some opcode) : opcode.IsPlain := by
  cases op <;> simp only [OpCode.ofBinary?, Option.some.injEq, reduceCtorEq] at h <;> subst h <;>
    decide

namespace Lowering

/-! ## The rules -/

/-- The property is kept when steps are put together, and what emits nothing has it. -/
structure QuietRule (P : ∀ {α : Type}, Lower α → Prop) : Prop where
  pure {α : Type} (a : α) : P (Pure.pure a : Lower α)
  bind {α β : Type} {m : Lower α} {k : α → Lower β} : P m → (∀ a, P (k a)) → P (m >>= k)
  withReader {α : Type} {g : Frame → Frame} {m : Lower α} : (∀ f, (g f).site = f.site) → P m →
    P (MonadWithReader.withReader g m : Lower α)
  read : P (MonadReader.read : Lower Frame)
  get : P (MonadState.get : Lower State)
  getSession : P Lowering.getSession
  modifyState {g : State → State} : (∀ s, (g s).session = s.session) → P (modify g : Lower Unit)
  defect {α : Type} (d : Defect) : P (Lowering.defect d : Lower α)
  note (level : LogLevel) (topic : LogTopic) (message : String) : P (Lowering.note level topic message)
  report (issue : Issue) (message : String) (span : Span) : P (Lowering.report issue message span)
  halt {α : Type} (issue : Issue) (message : String) (span : Span) :
    P (Lowering.halt issue message span : Lower α)
  lateVariable (entry : LateVariable) :
    P (modifySession fun s => { s with lateVariables := s.lateVariables.push entry })
  lateMember (i : Nat) (name : String) :
    P (modifySession fun s => { s with
      lateVariables := s.lateVariables.modify i fun e => { e with members := e.members ++ [name] } })
  lateFunction (entry : LateFunction) :
    P (modifySession fun s => { s with lateFunctions := s.lateFunctions.push entry })
  allocate (d : Declaration) : P (Lowering.allocate d)
  nextTemporary (letters : String) : P (Lowering.nextTemporary letters)
  nextUid : P Lowering.nextUid
  commit (node : GraphNode) : P (Lowering.commit node)

/-- What emits an instruction behind which control goes on has the property as well. -/
structure StraightRule (P : ∀ {α : Type}, Lower α → Prop) : Prop extends QuietRule P where
  emitSilent {i : Instruction} (hi : i.opcode.IsPlain) (span : Span) : P (Lowering.emitSilent i span)
  emit {i : Instruction} (hi : i.opcode.IsPlain) (span : Span) : P (Lowering.emit i span)

/-- What jumps, leaves and patches has the property as well, and what lowers statements elsewhere that have it. -/
structure StatementRule (P : ∀ {α : Type}, Lower α → Prop) : Prop extends StraightRule P where
  emitJmp (target : Option Nat) (span : Span) : P (Lowering.emitJmp target span)
  emitCjmp (condition : Operand) (holds : Nat) (span : Span) : P (Lowering.emitCjmp condition holds span)
  emitJz (condition : Operand) (span : Span) : P (Lowering.emitJz condition span)
  emitLeave : P Lowering.emitLeave
  patch (pending target : Nat) : P (Lowering.patch pending target)
  lowerBlock {statement : LowerStatement} : (∀ n, P (statement n)) → ∀ (dialect : Dialect) (body : List Node)
    (span : Span), P (Lowering.lowerBlock statement dialect body span)
  lowerFunction {statement : LowerStatement} : (∀ n, P (statement n)) → ∀ (fn : Function) (isGenerated : Bool),
    P (Lowering.lowerFunction statement fn isGenerated)
  lowerTopLevelClass {statement : LowerStatement} : (∀ n, P (statement n)) → ∀ c : ClassDecl,
    P (Lowering.lowerTopLevelClass statement c)

namespace QuietRule

variable {P : ∀ {α : Type}, Lower α → Prop} {α β : Type}

theorem ite (_ : QuietRule P) {c : Prop} [Decidable c] {m n : Lower α} (hm : P m) (hn : P n) :
    P (if c then m else n) := by
  split
  · exact hm
  · exact hn

variable (h : QuietRule P)
include h

/-- A step that is taken on a condition, before the steps behind it. -/
theorem onlyIf {c : Prop} [Decidable c] {m : Lower β} {k : Lower α} (hm : P m) (hk : P k) :
    P (if c then m >>= fun _ => k else k) := h.ite (h.bind hm fun _ => hk) hk

theorem forM {l : List α} {k : α → Lower Unit} (hk : ∀ a ∈ l, P (k a)) : P (l.forM k) := by
  induction l with
  | nil => exact h.pure ()
  | cons a rest ih =>
    refine h.bind (hk a (List.mem_cons_self ..)) fun _ => ih fun b hb => hk b ?_
    exact List.mem_cons_of_mem a hb

theorem modifyNode (g : GraphNode → GraphNode) : P (Lowering.modifyNode g) := h.modifyState fun _ => rfl

/-! ## Reading -/

theorem getBlock (id : Nat) : P (getBlock id) := by
  refine h.bind h.getSession fun s => ?_
  split
  · exact h.pure _
  · exact h.defect _

theorem getSymbol (r : SymbolRef) : P (getSymbol r) := by
  refine h.bind h.getSession fun s => ?_
  split
  · exact h.pure _
  · exact h.defect _

theorem classScope : P classScope := h.bind h.read fun _ => h.pure _

theorem classOperand : P classOperand := h.bind h.classScope fun _ => h.pure _

theorem blockOperand : P blockOperand := h.bind h.read fun _ => h.pure _

theorem pc : P pc := by
  refine h.bind h.getSession fun s => h.ite (h.pure _) ?_
  exact h.bind h.read fun f => h.bind (h.getBlock _) fun _ => h.pure _

theorem sight : P sight := by
  refine h.bind h.read fun f => h.bind h.getSession fun s => ?_
  split
  · exact h.defect _
  · split
    · exact h.bind (h.getBlock _) fun _ => h.pure _
    · exact h.pure _

theorem currentProcedure? : P currentProcedure? :=
  h.bind h.getSession fun _ => h.bind h.read fun _ => h.pure _

theorem guidesWanted : P guidesWanted :=
  h.bind h.read fun _ => h.bind h.getSession fun _ => h.pure _

/-! ## Recording -/

theorem recordRead (path : Path) (viaCall : Bool) : P (recordRead path viaCall) := by
  refine h.bind h.read fun f => h.ite ?_ (h.pure _)
  refine h.bind h.get fun s => ?_
  refine h.onlyIf (h.defect _) (h.ite ?_ (h.pure _))
  exact h.bind (h.note _ _ _) fun _ => h.modifyNode _

theorem recordIndexing (literals : List Segment) : P (recordIndexing literals) :=
  h.bind h.read fun _ => h.ite (h.modifyNode _) (h.pure _)

theorem recordSplitDims (literals : List Segment) (written : Bool) : P (recordSplitDims literals written) :=
  h.bind h.getSession fun _ => h.ite (h.modifyState fun _ => rfl) (h.pure _)

theorem recordSplitChain : P recordSplitChain := by
  refine h.bind h.sight fun v => h.bind h.get fun s => h.bind (h.modifyState fun _ => rfl) fun _ => ?_
  split
  · exact h.pure _
  · exact h.bind (h.note _ _ _) fun _ => h.recordRead _ _

theorem registerLateVariable (name : String) (c : Cursor) : P (registerLateVariable name c) := by
  refine h.bind h.getSession fun s => ?_
  have hnew (name : String) (k : LateVariable → Nat × Cursor) : P (do
      let scope := (← MonadReader.read).scope
      let entry : LateVariable :=
        { name, members := [], function := scope.function, classScope := scope.classScope }
      modifySession fun s => { s with lateVariables := s.lateVariables.push entry }
      return k entry) :=
    h.bind h.read fun f => h.bind (h.lateVariable _) fun _ => h.pure _
  cases c.lateEntry with
  | none => exact hnew name fun _ => _
  | some i => exact h.ite (h.bind (h.lateMember i name) fun _ => h.pure _) (hnew name fun _ => _)

theorem registerLateFunction (name : String) (arity : Nat) : P (registerLateFunction name arity) := by
  refine h.bind h.getSession fun s => h.bind h.read fun f => ?_
  exact h.bind (h.lateFunction _) fun _ => h.pure _

theorem warnUnbound (name : String) (span : Span) : P (warnUnbound name span) :=
  h.bind h.sight fun _ => h.report _ _ _

theorem warnFunctionNotFound (name : String) (arity : Nat) (span : Span) :
    P (warnFunctionNotFound name arity span) := h.bind h.sight fun _ => h.report _ _ _

theorem literalOperand (kind : LiteralKind) (source : String) (span : Span) :
    P (literalOperand kind source span) := by
  unfold Lowering.literalOperand
  split
  · exact h.defect _
  · split
    · exact h.bind (h.report _ _ _) fun _ => h.pure _
    · exact h.pure _

theorem chainSegments (node : Node) : P (chainSegments node) := by
  unfold Lowering.chainSegments
  split
  · exact h.pure _
  · exact h.halt _ _ _

theorem unguided {m : Lower α} (hm : P m) : P (unguided m) := h.withReader (fun _ => rfl) hm

theorem guidedCall {m : Lower α} (hm : P m) : P (guidedCall m) :=
  h.bind h.getSession fun _ => h.withReader (fun _ => rfl) hm

theorem freshNode (isTemporary : Bool) : P (freshNode isTemporary) :=
  h.bind h.read fun _ => h.bind h.nextUid fun _ => h.pure _

theorem tracking (node : GraphNode) {m : Lower α} (hm : P m) : P (tracking node m) := by
  refine h.bind (h.modifyState fun _ => rfl) fun _ => h.bind (h.withReader (fun _ => rfl) hm) fun _ => ?_
  exact h.bind h.get fun _ => h.pure _

theorem refineType (type : Ty) : P (refineType type) := by
  refine h.ite (h.bind h.getSession fun s => h.bind h.get fun t => ?_) (h.pure _)
  split
  · exact h.pure _
  · exact h.pure _

theorem hold (node : GraphNode) : P (hold node) := h.modifyState fun _ => rfl

theorem pushPointers (segments : List Node) : P (pushPointers segments) :=
  h.modifyState fun _ => rfl

/-! ## Looking ahead -/

theorem declareForward (name : String) : P (declareForward name) := by
  refine h.bind h.read fun f => h.ite (h.bind h.sight fun v => h.ite ?_ (h.pure _)) (h.pure _)
  exact h.bind (h.allocate _) fun _ => h.pure _

section
variable {part : ProbePart} (hpart : ∀ n, P (part n))
include hpart

theorem probeIdentifier (ident : Identifier) : P (probeIdentifier part ident) :=
  h.bind (h.forM fun d _ => hpart d) fun _ => h.ite (h.declareForward _) (h.pure _)

theorem probeSegment (isSingle : Bool) (segment : Node) : P (probeSegment part isSingle segment) := by
  unfold Lowering.probeSegment
  split
  · exact h.ite (h.probeIdentifier hpart _) (h.pure _)
  · exact h.forM fun a _ => hpart a
  · exact h.pure _

theorem probeChain (segments : List Node) : P (probeChain part segments) :=
  h.onlyIf (h.defect _) (h.forM fun n _ => h.probeSegment hpart _ n)

theorem probeNode (node : Node) : P (probeNode part node) := by
  unfold Lowering.probeNode
  cases node with
  | identifier => exact h.probeChain hpart _
  | call => exact h.probeChain hpart _
  | member => exact h.bind (h.chainSegments _) fun _ => h.probeChain hpart _
  | literal => exact h.pure _
  | list => exact h.forM fun n _ => hpart n
  | range => exact h.bind (hpart _) fun _ => h.bind (hpart _) fun _ => h.forM fun n _ => hpart n
  | unary => exact hpart _
  | binary left op right span =>
    dsimp only
    split
    · exact h.halt _ _ _
    · exact h.bind (hpart _) fun _ => hpart _
  | group => exact h.ite (hpart _) (h.bind (hpart _) fun _ => h.forM fun n _ => hpart n)
  | defaultArg => exact h.pure _
  | dynamic => exact h.pure _
  | _ => exact h.halt _ _ _

end

theorem probe (node : Node) : P (probe node) := by
  have hwithin (depth : Nat) (n : Node) : P (probeWithin depth n) := by
    induction depth generalizing n with
    | zero => exact h.defect _
    | succ depth ih => exact h.probeNode ih n
  exact hwithin _ node

/-! ## Declarations -/

theorem targetSymbol (ident : Identifier) (type : Ty) : P (targetSymbol ident type) := by
  refine h.bind h.sight fun v => ?_
  cases v.resolve ident.name with
  | found r => exact h.pure _
  | inaccessible r => exact h.bind (h.report _ _ _) fun _ => h.allocate _
  | unbound => exact h.allocate _

theorem resolveType (type : TypeName) (span : Span) : P (resolveType type span) := by
  refine h.bind h.getSession fun s => ?_
  split
  · exact h.pure _
  · exact h.halt _ _ _

theorem resolveParams (params : List Parameter) : P (resolveParams params) := by
  induction params with
  | nil => exact h.pure _
  | cons p rest ih => exact h.bind (h.resolveType _ _) fun _ => h.bind ih fun _ => h.pure _

theorem lowerAttributes (attributes : List Call) : P (lowerAttributes attributes) := by
  induction attributes with
  | nil => exact h.pure _
  | cons a rest ih =>
    refine h.bind h.getSession fun s => ?_
    split
    · exact h.bind ih fun _ => h.pure _
    · exact h.bind (h.report _ _ _) fun _ => ih

theorem resolveBase (c : ClassDecl) : P (resolveBase c) := by
  unfold Lowering.resolveBase
  split
  · exact h.pure _
  · refine h.bind h.getSession fun s => ?_
    split
    · exact h.pure _
    · exact h.halt _ _ _

theorem lowerMembers (members : List Variable) : P (lowerMembers members) := by
  induction members with
  | nil => exact h.pure _
  | cons v rest ih => exact h.bind (h.resolveType _ _) fun _ => h.bind (h.allocate _) fun _ => ih

/-- The procedures of a class, made-up ones included, are lowered one after another. -/
theorem lowerClassBody {statement : LowerStatement}
    (hfunction : ∀ fn isGenerated, P (lowerFunction statement fn isGenerated)) (c : ClassDecl) :
    P (lowerClassBody statement c) := by
  refine h.bind (h.lowerMembers _) fun _ => h.bind (h.forM fun v _ => ?_) fun _ => ?_
  · exact h.bind (hfunction _ _) fun _ => hfunction _ _
  refine h.bind (h.forM fun f _ => hfunction _ _) fun _ => ?_
  exact h.bind (h.forM fun f _ => hfunction _ _) fun _ => h.ite (hfunction _ _) (h.pure _)

theorem lowerAll {statement : LowerStatement} (hstatement : ∀ n, P (statement n)) (l : List Node) :
    P (lowerAll statement l) := by
  induction l with
  | nil => exact h.pure _
  | cons n rest ih => exact h.bind (hstatement n) fun _ => h.bind ih fun _ => h.pure _

end QuietRule

/-! ## The two halves of a return -/

/-- A return up to the instruction that leaves. -/
def lowerResult (value : Option Node) (span : Span) : Lower Unit := do
  let procedure ← currentProcedure?
  match procedure with
  | some p =>
    if p.isConstructor then
      halt .returnInConstructor ("Constructor '" ++ p.name ++ "' cannot return a value.") span
  | none => pure ()
  let startPc ← pc
  let type ← lowerReturned value span
  let endPc := (← pc) - 1
  modifyNode fun n => { n with startPc, endPc }
  checkReturned procedure type span
  let _ ← emitPop (.register .rx) (← classScope) span

/-- What `lowerResult` does in a procedure that may return. -/
def finishResult (value : Option Node) (span : Span) (procedure : Option Procedure) : Lower Unit := do
  let startPc ← pc
  let type ← lowerReturned value span
  let endPc := (← pc) - 1
  modifyNode fun n => { n with startPc, endPc }
  checkReturned procedure type span
  let _ ← emitPop (.register .rx) (← classScope) span

theorem returnStatement_eq (value : Option Node) (span : Span) :
    returnStatement value span = (do
      lowerResult value span
      let _ ← emitLeave) := by
  unfold returnStatement lowerResult emitResult
  refine Eq.trans (bind_congr fun procedure => ?_) (bind_assoc _ _ _).symm
  cases procedure with
  | none => simp only [bind_assoc, pure_bind]
  | some p =>
    dsimp only
    split
    · simp only [bind_assoc, pure_bind]
    · simp only [bind_assoc, pure_bind]

namespace StraightRule

variable {P : ∀ {α : Type}, Lower α → Prop} (h : StraightRule P)
include h

/-! ## Emitters -/

theorem emitPush (operand : Operand) (dims : Nat) (span : Span) : P (emitPush operand dims span) :=
  h.bind h.classOperand fun _ => h.emit (by decide : OpCode.push.IsPlain) span

theorem emitPushm (operand : Operand) (cls : Option Nat) (span : Span) : P (emitPushm operand cls span) :=
  h.bind h.blockOperand fun _ => h.emit (by decide : OpCode.pushm.IsPlain) span

theorem emitPushlist (depth : Nat) (afterCall : Bool) (span : Span) : P (emitPushlist depth afterCall span) :=
  h.bind h.classOperand fun _ => h.bind h.blockOperand fun _ =>
    h.emitSilent (by decide : OpCode.pushlist.IsPlain) span

theorem emitPushIndex (operand : Operand) : P (emitPushIndex operand) :=
  h.emitSilent (by decide : OpCode.pushindex.IsPlain) .nil

theorem emitPushDims (dims : Nat) : P (emitPushDims dims) :=
  h.bind h.classOperand fun _ => h.emitSilent (by decide : OpCode.push.IsPlain) .nil

theorem emitPushType (type : Ty) : P (emitPushType type) :=
  h.bind h.classOperand fun _ => h.emitSilent (by decide : OpCode.push.IsPlain) .nil

theorem emitPushVarData (block dims : Nat) (type : Ty) : P (emitPushVarData block dims type) := by
  refine h.bind h.classOperand fun _ => ?_
  refine h.bind (h.emitSilent (by decide : OpCode.push.IsPlain) .nil) fun _ => ?_
  exact h.bind (h.emitSilent (by decide : OpCode.push.IsPlain) .nil) fun _ => h.emitPushType type

theorem emitPop (operand : Operand) (cls : Option Nat) (span : Span) :
    P (emitPop operand cls span) := h.emit (by decide : OpCode.pop.IsPlain) span

theorem emitPopSymbol (symbol : Symbol) (dims : Nat) (span : Span) : P (emitPopSymbol symbol dims span) := by
  refine h.bind h.getSession fun _ => h.ite (h.emitSilent (by decide : OpCode.pop.IsPlain) span) ?_
  exact h.emit (by decide : OpCode.pop.IsPlain) span

theorem emitStore (symbol : Symbol) (dims : Nat) (span : Span) : P (emitStore symbol dims span) :=
  h.bind (h.emitPushVarData _ _ _) fun _ => h.emitPopSymbol symbol dims span

theorem emitPoplist (depth : Nat) (start : Option Nat) (span : Span) : P (emitPoplist depth start span) :=
  h.bind h.blockOperand fun _ => h.emit (by decide : OpCode.poplist.IsPlain) span

theorem emitAlloca (count : Nat) (isString : Bool) : P (emitAlloca count isString) :=
  h.emitSilent (by decide : OpCode.alloca.IsPlain) .nil

theorem emitHeapBox (symbol : Symbol) : P (emitHeapBox symbol) := by
  unfold Lowering.emitHeapBox
  split
  · exact h.pure _
  · refine h.bind (h.emitSilent (by decide : OpCode.mov.IsPlain) .nil) fun _ => ?_
    exact h.bind (h.emitSilent (by decide : OpCode.alloc.IsPlain) .nil) fun _ => h.pure _

theorem emitGuides (guides : List Guide) : P (emitGuides guides) := by
  refine h.bind (h.forM fun g _ => ?_) fun _ => ?_
  · exact h.bind (h.emitPush _ _ _) fun _ => h.pure _
  · exact h.bind (h.emitPushIndex _) fun _ => h.pure _

theorem emitBounce (block entry : Nat) (span : Span) : P (emitBounce block entry span) :=
  h.emit (by decide : OpCode.bounce.IsPlain) span

theorem emitCallTo {opcode : OpCode} (hop : opcode.IsPlain) (target : ProcRef) (depth : Nat) (span : Span) :
    P (emitCallTo opcode target depth span) := h.emit hop span

theorem emitLateCall (index depth : Nat) (span : Span) : P (emitLateCall index depth span) :=
  h.bind h.classOperand fun _ => h.emit (by decide : OpCode.callr.IsPlain) span

/-! ## Expressions -/

theorem lowerString (source : String) (span : Span) : P (lowerString source span) := by
  refine h.bind (h.forM fun c _ => ?_) fun _ => ?_
  · exact h.bind (h.emitPush _ _ _) fun _ => h.pure _
  · exact h.bind (h.emitAlloca _ _) fun _ => h.pure _

theorem lowerLiteral (kind : LiteralKind) (source : String) (span : Span) (expected : Ty) :
    P (lowerLiteral kind source span expected) := by
  refine h.bind h.getSession fun s => h.bind h.guidesWanted fun on => h.onlyIf (h.emitPushIndex _) ?_
  cases kind with
  | string => exact h.bind (h.lowerString _ _) fun _ => h.pure _
  | _ => exact h.bind (h.literalOperand _ _ _) fun _ => h.bind (h.emitPush _ _ _) fun _ => h.pure _

theorem stopChain (c : Cursor) (span : Span) : P (stopChain c span) :=
  h.bind (h.emitPush _ _ _) fun _ => h.pure _

theorem lowerThis (ident : Identifier) (c : Cursor) : P (lowerThis ident c) := by
  refine h.bind h.classScope fun cls => h.ite ?_ ?_
  · exact h.bind (h.emitPush _ _ _) fun _ => h.pure _
  · exact h.bind (h.emitPushm _ _ _) fun _ => h.pure _

theorem lowerClassName (ident : Identifier) (c : Cursor) (cls : Nat) : P (lowerClassName ident c cls) := by
  refine h.ite ?_ ?_
  · exact h.bind (h.emitPush _ _ _) fun _ => h.pure _
  · exact h.bind (h.emitPushm _ _ _) fun _ => h.pure _

theorem lowerInaccessible (ident : Identifier) (c : Cursor) : P (lowerInaccessible ident c) :=
  h.bind (h.report _ _ _) fun _ => h.bind h.sight fun _ => h.stopChain _ _

theorem lowerKnownCall (call : Call) (c : Cursor) (r : ProcRef) : P (lowerKnownCall call c r) := by
  refine h.bind (h.emitCallTo (by decide) _ _ _) fun _ => h.bind h.getSession fun s => ?_
  split
  · exact h.defect _
  · exact h.onlyIf (h.modifyState fun _ => rfl) (h.pure _)

theorem lowerLateCall (call : Call) (c : Cursor) : P (lowerLateCall call c) := by
  refine h.onlyIf (h.warnFunctionNotFound _ _ _) ?_
  exact h.bind (h.registerLateFunction _ _) fun _ => h.bind (h.emitLateCall _ _ _) fun _ => h.pure _

section
variable {part : LowerPart} (hpart : ∀ n, P (part n))
include hpart

theorem lowerDims (dims : List Node) : P (lowerDims part dims) :=
  h.unguided (h.forM fun d _ => h.bind (hpart d) fun _ => h.pure _)

theorem lowerSymbol (ident : Identifier) (c : Cursor) (r : SymbolRef) : P (lowerSymbol part ident c r) := by
  refine h.bind (h.getSymbol r) fun symbol => ?_
  split
  · exact h.bind h.sight fun _ => h.bind (h.report _ _ _) fun _ => h.stopChain _ _
  · refine h.bind (h.lowerDims hpart _) fun _ => h.bind h.read fun f => ?_
    refine h.bind (h.recordSplitDims _ _) fun _ => h.ite ?_ ?_
    · exact h.bind (h.emitPush _ _ _) fun _ => h.pure _
    · exact h.onlyIf (h.emitPushDims _) (h.bind (h.emitPushm _ _ _) fun _ => h.pure _)

theorem lowerLate (ident : Identifier) (c : Cursor) : P (lowerLate part ident c) := by
  refine h.onlyIf (h.warnUnbound _ _) ?_
  refine h.bind (h.registerLateVariable _ _) fun p => h.bind (h.lowerDims hpart _) fun _ => ?_
  refine h.onlyIf (h.emitPushDims _) ?_
  exact h.bind h.classScope fun _ => h.bind (h.emitPushm _ _ _) fun _ => h.pure _

theorem lowerIdentifier (ident : Identifier) (c : Cursor) : P (lowerIdentifier part ident c) := by
  refine h.ite (h.lowerThis _ _) (h.bind h.sight fun v => ?_)
  cases v.segmentTarget ident.name c with
  | symbol r => exact h.lowerSymbol hpart ident c r
  | cls id => exact h.lowerClassName ident c id
  | inaccessible => exact h.lowerInaccessible ident c
  | arrayReceiver => exact h.stopChain c ident.span
  | unbound =>
    refine h.ite ?_ (h.lowerLate hpart ident c)
    exact h.bind (h.warnUnbound _ _) fun _ => h.stopChain _ _

theorem lowerInvocation (call : Call) (c : Cursor) (target : Option ProcRef) :
    P (lowerInvocation part call c target) := by
  refine h.bind (h.forM fun a _ => h.bind (hpart a) fun _ => h.pure _) fun _ => ?_
  cases target with
  | some r =>
    refine h.bind (h.lowerKnownCall call c r) fun p => h.bind (h.lowerDims hpart _) fun _ => ?_
    exact h.onlyIf (h.emitPushIndex _) (h.bind h.read fun _ => h.pure _)
  | none =>
    refine h.bind (h.lowerLateCall call c) fun p => h.bind (h.lowerDims hpart _) fun _ => ?_
    exact h.onlyIf (h.emitPushIndex _) (h.bind h.read fun _ => h.pure _)

theorem lowerResolvedCall (call : Call) (c : Cursor) : P (lowerResolvedCall part call c) := by
  refine h.bind h.sight fun v => ?_
  cases v.callTarget call.name call.args.length c with
  | procedure r => exact h.lowerInvocation hpart call c (some r)
  | unresolved => exact h.lowerInvocation hpart call c none
  | nonStatic => exact h.bind (h.report _ _ _) fun _ => h.stopChain _ _
  | inaccessible => exact h.bind (h.report _ _ _) fun _ => h.stopChain _ _
  | arrayReceiver => exact h.stopChain _ _

theorem lowerCall (call : Call) (c : Cursor) : P (lowerCall part call c) := by
  refine h.guidedCall (h.bind h.sight fun v => ?_)
  split
  · exact h.lowerIdentifier hpart _ c
  · exact h.lowerResolvedCall hpart call c

theorem lowerSegment (isRoot : Bool) (segment : Node) (c : Cursor) :
    P (lowerSegment part isRoot segment c) := by
  unfold Lowering.lowerSegment
  split
  · exact h.lowerIdentifier hpart _ c
  · exact h.lowerCall hpart _ c
  · exact h.ite (h.bind (hpart _) fun _ => h.pure _) (h.halt _ _ _)

theorem lowerSegments (isRoot : Bool) (segments : List Node) (c : Cursor) :
    P (lowerSegments part isRoot segments c) := by
  induction segments generalizing isRoot c with
  | nil => exact h.pure _
  | cons segment rest ih =>
    refine h.ite (h.pure _) (h.bind (h.lowerSegment hpart _ _ _) fun c => ?_)
    exact ih false c

theorem lowerChain (segments : List Node) (span : Span) : P (lowerChain part segments span) := by
  refine h.onlyIf (h.defect _) (h.bind h.guidesWanted fun on => h.onlyIf (h.emitGuides _) ?_)
  refine h.bind (h.lowerSegments hpart _ _ _) fun c => ?_
  exact h.onlyIf (h.emitPushlist _ _ _) (h.bind (h.recordRead _ _) fun _ => h.pure _)

theorem lowerItems (common : Option Ty) (items : List Node) : P (lowerItems part common items) := by
  induction items generalizing common with
  | nil => exact h.pure _
  | cons item rest ih =>
    unfold Lowering.lowerItems
    split
    · exact h.bind (h.lowerLiteral _ _ _ _) fun _ => ih _
    · exact h.bind (hpart _) fun _ => ih _

theorem lowerList (items dims : List Node) (guides : List Guide) : P (lowerList part items dims guides) := by
  refine h.bind (h.unguided (h.lowerItems hpart _ _)) fun common => h.bind (h.emitAlloca _ _) fun _ => ?_
  refine h.bind (h.lowerDims hpart _) fun _ => h.onlyIf (h.emitPushIndex _) ?_
  exact h.bind h.guidesWanted fun on => h.onlyIf (h.emitGuides _) (h.pure _)

theorem lowerRange (first last : Node) (step : Option Node) (span : Span) :
    P (lowerRange part first last step span) := by
  refine h.bind (hpart _) fun _ => h.bind (hpart _) fun _ => ?_
  have hrange : P (do
      let _ ← Lowering.emit (.bare .range) span
      return (⟨some Primitive.var.uid, 1⟩ : Ty)) :=
    h.bind (h.emit (by decide) span) fun _ => h.pure _
  cases step with
  | some step => exact h.bind (hpart step) fun _ => hrange
  | none => exact h.bind (h.emitPush _ _ _) fun _ => hrange

theorem lowerUnary (op : UnaryOperator) (operand : Node) (span : Span) :
    P (lowerUnary part op operand span) := by
  refine h.bind (hpart _) fun _ => h.bind h.classScope fun cls => h.bind (h.emitPop _ _ _) fun _ => ?_
  refine h.bind (h.emit (OpCode.isPlain_ofUnary op) span) fun _ => ?_
  exact h.bind (h.emitPush _ _ _) fun _ => h.pure _

theorem lowerBinary (left : Node) (op : Operator) (right : Node) (span : Span) :
    P (lowerBinary part left op right span) := by
  unfold Lowering.lowerBinary
  split
  · exact h.halt _ _ _
  · rename_i opcode hop
    refine h.bind (hpart _) fun _ => h.bind (hpart _) fun _ => h.bind h.classScope fun cls => ?_
    refine h.bind (h.emitPop _ _ _) fun _ => h.bind (h.emitPop _ _ _) fun _ => ?_
    refine h.bind (h.emit (OpCode.isPlain_ofBinary hop) span) fun _ => ?_
    exact h.bind (h.emitPush _ _ _) fun _ => h.pure _

theorem lowerGroup (inner : Node) (dims : List Node) (guides : List Guide) :
    P (lowerGroup part inner dims guides) := by
  refine h.ite (hpart _) (h.bind (hpart _) fun type => h.bind (h.lowerDims hpart _) fun _ => ?_)
  exact h.onlyIf (h.emitPushIndex _) (h.pure _)

theorem lowerNode (node : Node) : P (lowerNode part node) := by
  unfold Lowering.lowerNode
  cases node with
  | identifier => exact h.lowerChain hpart _ _
  | call => exact h.lowerChain hpart _ _
  | member => exact h.bind (h.chainSegments _) fun segments => h.lowerChain hpart _ _
  | literal => exact h.lowerLiteral _ _ _ _
  | list => exact h.lowerList hpart _ _ _
  | range => exact h.lowerRange hpart _ _ _ _
  | unary => exact h.lowerUnary hpart _ _ _
  | binary => exact h.lowerBinary hpart _ _ _ _
  | group => exact h.lowerGroup hpart _ _ _
  | defaultArg => exact h.bind (h.emitPush _ _ _) fun _ => h.pure _
  | dynamic => exact h.bind (h.emitPush _ _ _) fun _ => h.pure _
  | _ => exact h.halt _ _ _

end

theorem expressionWithin (depth : Nat) (node : Node) : P (expressionWithin depth node) := by
  induction depth generalizing node with
  | zero => exact h.defect _
  | succ depth ih => exact h.lowerNode ih node

theorem expression (node : Node) : P (expression node) :=
  h.expressionWithin _ node

/-! ## Storing and returning -/

theorem storeIdentifier (ident : Identifier) (type : Ty) : P (storeIdentifier ident type) := by
  refine h.bind (h.targetSymbol _ _) fun r => h.bind (h.getSymbol r) fun symbol => ?_
  refine h.bind (h.lowerDims h.expression _) fun _ => h.ite ?_ ?_
  · refine h.bind h.read fun f => h.bind (h.recordIndexing _) fun _ => ?_
    exact h.bind (h.recordSplitDims _ _) fun _ => h.bind (h.emitStore _ _ _) fun _ => h.pure _
  · exact h.bind (h.emitStore _ _ _) fun _ => h.pure _

theorem lowerProperty (property : Identifier) (c : Cursor) (resolution : Resolution) (span : Span) :
    P (lowerProperty property c resolution span) := by
  cases resolution with
  | found r => exact h.bind (h.getSymbol r) fun _ => h.bind (h.emitPushm _ _ _) fun _ => h.pure _
  | inaccessible r => exact h.bind (h.report _ _ _) fun _ => h.bind (h.emitPush _ _ _) fun _ => h.pure _
  | unbound =>
    refine h.onlyIf (h.warnUnbound _ _) (h.bind (h.registerLateVariable _ _) fun p => ?_)
    exact h.bind h.classScope fun _ => h.bind (h.emitPushm _ _ _) fun _ => h.pure _

theorem storeProperty (property : Identifier) (c : Cursor) (span : Span) :
    P (storeProperty property c span) := by
  refine h.bind h.sight fun v => h.bind (h.lowerDims h.expression _) fun _ => h.ite ?_ ?_
  · refine h.bind (h.recordIndexing _) fun _ => h.bind (h.emitPushDims _) fun _ => ?_
    exact h.bind (h.lowerProperty _ _ _ _) fun _ => h.bind (h.emitPoplist _ _ _) fun _ => h.pure _
  · exact h.bind (h.lowerProperty _ _ _ _) fun _ => h.bind (h.emitPoplist _ _ _) fun _ => h.pure _

theorem storeMember (property : Identifier) (segments : List Node) (span : Span) :
    P (storeMember property segments span) := by
  refine h.bind (h.withReader (fun _ => rfl) (h.lowerSegments h.expression _ _ _)) fun c => ?_
  refine h.bind h.sight fun v => ?_
  refine h.ite (h.bind (h.emitPoplist _ _ _) fun _ => h.pure _) ?_
  split
  · exact h.bind (h.emitCallTo (by decide) _ _ _) fun _ => h.pure _
  · exact h.storeProperty _ _ _

theorem storeChain (target : Node) : P (storeChain target) := by
  refine h.bind (h.chainSegments target) fun segments => ?_
  split
  · exact h.defect _
  · exact h.storeMember _ _ _
  · exact h.halt _ _ _

theorem assignTo (target : Node) (type : Ty) : P (assignTo target type) := by
  unfold Lowering.assignTo
  split
  · exact h.ite (h.halt _ _ _) (h.storeIdentifier _ _)
  · exact h.storeChain _
  · exact h.halt _ _ _

theorem lowerReturned (value : Option Node) (span : Span) : P (lowerReturned value span) := by
  cases value with
  | some v => exact h.expression v
  | none => exact h.bind (h.emitPush _ _ _) fun _ => h.pure _

theorem checkReturned (procedure : Option Procedure) (type : Ty) (span : Span) :
    P (checkReturned procedure type span) := by
  cases procedure with
  | none => exact h.pure _
  | some p =>
    refine h.bind h.getSession fun s => h.ite (h.bind (h.report _ _ _) fun _ => ?_) (h.pure _)
    exact h.bind (h.emitPop _ _ _) fun _ => h.bind (h.emitPush _ _ _) fun _ => h.pure _

theorem lowerResult (value : Option Node) (span : Span) : P (lowerResult value span) := by
  have hrest : ∀ procedure, P (finishResult value span procedure) := by
    intro procedure
    refine h.bind h.pc fun _ => h.bind (h.lowerReturned _ _) fun _ => h.bind h.pc fun _ => ?_
    refine h.bind (h.modifyNode _) fun _ => h.bind (h.checkReturned _ _ _) fun _ => ?_
    exact h.bind h.classScope fun _ => h.bind (h.emitPop _ _ _) fun _ => h.pure _
  refine h.bind h.currentProcedure? fun procedure => ?_
  cases procedure with
  | none => exact hrest none
  | some p => exact h.onlyIf (h.halt _ _ _) (hrest (some p))

section
variable (hleave : P emitLeave)
include hleave

theorem emitResult (span : Span) : P (emitResult span) :=
  h.bind h.classScope fun _ => h.bind (h.emitPop _ _ _) fun _ => hleave

theorem returnStatement (value : Option Node) (span : Span) : P (returnStatement value span) := by
  rw [returnStatement_eq]
  exact h.bind (h.lowerResult value span) fun _ => h.bind hleave fun _ => h.pure _

theorem closeUnit (unit : List Node) : P (closeUnit unit) := by
  refine h.bind h.read fun f => h.ite ?_ (h.ite (h.pure _) (h.bind h.currentProcedure? fun p => h.ite ?_ ?_))
  · exact h.bind hleave fun _ => h.pure _
  · exact h.bind (h.emitPush _ _ _) fun _ => h.bind (h.emitResult hleave _) fun _ => h.pure _
  · exact h.bind (h.emitPush _ _ _) fun _ => h.bind (h.emitResult hleave _) fun _ => h.pure _

end

/-! ## Statements of straight code -/

theorem lowerValueAndStore (target value : Node) (isLast : Bool) :
    P (lowerValueAndStore target value isLast) := by
  refine h.bind h.pc fun _ => h.bind (h.expression _) fun _ => h.bind h.pc fun _ => ?_
  refine h.onlyIf h.recordSplitChain (h.bind (h.refineType _) fun _ => ?_)
  exact h.bind (h.assignTo _ _) fun _ => h.pure _

theorem graphStatement (target value : Node) (span : Span) (isTemporary isLast : Bool) :
    P (graphStatement target value span isTemporary isLast) := by
  refine h.bind (h.freshNode _) fun _ => h.bind (h.probe _) fun _ => ?_
  refine h.bind (h.tracking _ (h.lowerValueAndStore _ _ _)) fun _ => ?_
  refine h.bind (h.emitSilent (by decide : OpCode.depx.IsPlain) _) fun _ => ?_
  exact h.bind (h.note _ _ _) fun _ => h.pure _

theorem lowerFactors (target : Node) (span : Span) (factor : Node) (anchor : Option Nat)
    (rest : List Node) : P (lowerFactors target span factor anchor rest) := by
  induction rest generalizing factor anchor with
  | nil =>
    refine h.bind (h.nextTemporary _) fun _ => ?_
    refine h.bind (h.withReader (fun _ => rfl) (h.graphStatement _ _ _ _ _)) fun _ => ?_
    exact h.bind (h.hold _) fun _ => h.bind (h.graphStatement _ _ _ _ _) fun _ => h.hold _
  | cons segment rest ih =>
    refine h.bind (h.nextTemporary _) fun _ => ?_
    refine h.bind (h.withReader (fun _ => rfl) (h.graphStatement _ _ _ _ _)) fun _ => ?_
    exact h.bind (h.hold _) fun _ => h.bind (h.pushPointers _) fun _ => ih _ _

theorem splitChain (target : Node) (segments : List Node) (span : Span) :
    P (splitChain target segments span) := by
  refine h.bind h.sight fun v => ?_
  split
  · exact h.bind (h.pushPointers _) fun _ => h.lowerFactors _ _ _ _ _
  · exact h.bind (h.pushPointers _) fun _ => h.lowerFactors _ _ _ _ _
  · exact h.defect _

theorem lowerSplit (target chain : Node) (span : Span) : P (lowerSplit target chain span) := by
  refine h.bind (h.chainSegments _) fun _ => h.bind (h.modifyState fun _ => rfl) fun _ => ?_
  refine h.bind (h.splitChain _ _ _) fun _ => h.bind h.get fun _ => ?_
  exact h.bind (h.modifyState fun _ => rfl) fun _ => h.forM fun n _ => h.commit n

theorem lowerUpdate (target value : Node) (span : Span) : P (lowerUpdate target value span) := by
  refine h.bind (h.modifyState fun _ => rfl) fun _ => h.bind h.getSession fun _ => h.ite ?_ ?_
  · exact h.lowerSplit _ _ _
  · exact h.bind (h.graphStatement _ _ _ _ _) fun _ => h.commit _

theorem lowerUnnamed (node : Node) : P (lowerUnnamed node) :=
  h.bind (h.nextTemporary _) fun _ => h.lowerUpdate _ _ _

theorem lowerCondition (condition : Node) (span : Span) : P (lowerCondition condition span) := by
  refine h.bind (h.expression _) fun _ => h.bind h.classScope fun _ => ?_
  exact h.bind (h.emitPop _ _ _) fun _ => h.pure _

theorem lowerAssignment (target value : Node) : P (lowerAssignment target value) := by
  refine h.bind (h.modifyState fun _ => rfl) fun _ => h.bind (h.expression _) fun _ => ?_
  exact h.bind (h.assignTo _ _) fun _ => h.pure _

theorem lowerDiscarded (node : Node) : P (lowerDiscarded node) := by
  refine h.bind (h.expression _) fun _ => h.bind h.classScope fun _ => ?_
  exact h.bind (h.emitPop _ _ _) fun _ => h.pure _

theorem lowerVariable {statement : LowerStatement}
    (hassign : ∀ target value span, P (statement (.assign target value span))) (v : Variable) :
    P (lowerVariable statement v) := by
  refine h.bind (h.resolveType _ _) fun type => h.bind (h.allocate _) fun r => ?_
  refine h.bind (h.getSymbol r) fun symbol => h.bind (h.emitHeapBox symbol) fun _ => ?_
  unfold initializer?
  cases v.value with
  | none => exact h.pure _
  | some value => exact h.bind (hassign _ _ _) fun _ => h.pure _

end StraightRule

namespace StatementRule

variable {P : ∀ {α : Type}, Lower α → Prop} (h : StatementRule P)
include h

theorem lowerReturn (value : Option Node) (span : Span) : P (lowerReturn value span) := by
  refine h.bind (h.freshNode _) fun _ => h.bind (h.tracking _ (h.returnStatement h.emitLeave _ _)) fun _ => ?_
  exact h.bind h.classScope fun _ => h.commit _

theorem patchAll (pending : List Nat) (target : Nat) : P (patchAll pending target) :=
  h.forM fun p _ => h.patch p target

theorem lowerExit (keyword : String) (span : Span) (exits : Nat → Exits) :
    P (lowerExit keyword span exits) := by
  refine h.bind h.read fun f => h.onlyIf (h.halt _ _ _) ?_
  exact h.bind (h.emitJmp _ _) fun _ => h.pure _

theorem plain {m : Lower Unit} (hm : P m) : P (plain m) := h.bind hm fun _ => h.pure _

section
variable {statement : LowerStatement} (hstatement : ∀ n, P (statement n))
include hstatement

theorem associativeStatement (node : Node) : P (associativeStatement statement node) := by
  unfold Lowering.associativeStatement
  cases node with
  | assign => exact h.lowerUpdate _ _ _
  | ret => exact h.lowerReturn _ _
  | varDecl v => exact h.lowerVariable (fun _ _ _ => hstatement _) v
  | function f => exact h.lowerFunction hstatement f false
  | classDecl c => exact h.lowerTopLevelClass hstatement c
  | block => exact h.lowerBlock hstatement _ _ _
  | branch => exact h.halt _ _ _
  | loop => exact h.halt _ _ _
  | breakLoop => exact h.halt _ _ _
  | continueLoop => exact h.halt _ _ _
  | _ => exact h.lowerUnnamed _

theorem lowerIf (body : List Node) (span : Span) : P (lowerIf statement body span) := by
  refine h.bind (h.emitJz _ _) fun _ => h.bind (h.lowerAll hstatement _) fun _ => ?_
  exact h.bind h.pc fun _ => h.bind (h.patch _ _) fun _ => h.pure _

theorem lowerIfElse (body otherwise : List Node) (span : Span) :
    P (lowerIfElse statement body otherwise span) := by
  refine h.bind h.pc fun _ => h.bind (h.emitCjmp _ _ _) fun _ => h.bind (h.lowerAll hstatement _) fun _ => ?_
  refine h.bind (h.emitJmp _ _) fun _ => h.bind h.pc fun _ => h.bind (h.patch _ _) fun _ => ?_
  refine h.bind (h.lowerAll hstatement _) fun _ => h.bind h.pc fun _ => ?_
  exact h.bind (h.patch _ _) fun _ => h.pure _

theorem lowerWhile (condition : Node) (body : List Node) (span : Span) :
    P (lowerWhile statement condition body span) := by
  refine h.bind h.pc fun _ => h.bind (h.lowerCondition _ _) fun _ => h.bind h.pc fun _ => ?_
  refine h.bind (h.emitCjmp _ _ _) fun _ => h.bind (h.withReader (fun _ => rfl) (h.lowerAll hstatement _)) fun _ => ?_
  refine h.bind (h.patchAll _ _) fun _ => h.bind (h.emitJmp _ _) fun _ => h.bind h.pc fun _ => ?_
  exact h.bind (h.patch _ _) fun _ => h.patchAll _ _

theorem imperativeStatement (node : Node) : P (imperativeStatement statement node) := by
  unfold Lowering.imperativeStatement
  cases node with
  | assign => exact h.plain (h.lowerAssignment _ _)
  | ret => exact h.plain (h.returnStatement h.emitLeave _ _)
  | branch =>
    refine h.bind (h.lowerCondition _ _) fun _ => h.ite ?_ ?_
    · exact h.lowerIf hstatement _ _
    · exact h.lowerIfElse hstatement _ _ _
  | loop => exact h.plain (h.lowerWhile hstatement _ _ _)
  | breakLoop => exact h.lowerExit _ _ _
  | continueLoop => exact h.lowerExit _ _ _
  | varDecl v => exact h.plain (h.lowerVariable (fun _ _ _ => hstatement _) v)
  | block => exact h.plain (h.lowerBlock hstatement _ _ _)
  | function f => exact h.plain (h.lowerFunction hstatement f false)
  | classDecl => exact h.halt _ _ _
  | _ => exact h.plain (h.lowerDiscarded _)

end

theorem statementWithin (depth : Nat) (node : Node) : P (statementWithin depth node) := by
  induction depth generalizing node with
  | zero => exact h.defect _
  | succ depth ih =>
    refine h.bind h.read fun f => ?_
    cases f.dialect with
    | associative => exact h.plain (h.associativeStatement ih node)
    | imperative => exact h.imperativeStatement ih node

theorem statement (node : Node) : P (statement node) := h.statementWithin _ node

end StatementRule

end Lowering

end Diglot
