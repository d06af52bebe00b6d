import Diglot.Proofs.Course.Basic

/-! # Courses of the primitive steps

`Composed w D P m` says that `m` has a course wherever it starts in order. The rules here put courses
together, and the lemmas behind them are the courses of the steps that read, emit and declare.

An instruction is *plain* if control goes on behind it and none of its operands is a place in the code
(`Instruction.IsPlain`). Expressions and stores emit nothing else.
-/

set_option autoImplicit false

namespace Diglot

theorem Operand.isLabel_ofSymbol (x : Symbol) : (Operand.ofSymbol x).isLabel = false := by
  unfold ofSymbol
  split
  · split <;> rfl
  · rfl

namespace Instruction

/-- The instruction has no place in the code as an operand. -/
def HasNoLabel (i : Instruction) : Prop := ∀ o ∈ i.operands, o.isLabel = false

/-- Control goes on behind the instruction, which names no place in the code. -/
def IsPlain (i : Instruction) : Prop := i.opcode.IsPlain ∧ i.HasNoLabel

theorem isPlain_bare {op : OpCode} (h : op.IsPlain) : (bare op).IsPlain :=
  ⟨h, fun o ho => by cases ho⟩

theorem isPlain_unary {op : OpCode} (h : op.IsPlain) {a : Operand} (ha : a.isLabel = false) :
    (unary op a).IsPlain := by
  refine ⟨h, fun o ho => ?_⟩
  simp only [unary, operands, Option.toList_some, Option.toList_none, List.append_nil,
    List.mem_singleton] at ho
  rwa [ho]

theorem isPlain_binary {op : OpCode} (h : op.IsPlain) {a b : Operand} (ha : a.isLabel = false)
    (hb : b.isLabel = false) : (binary op a b).IsPlain := by
  refine ⟨h, fun o ho => ?_⟩
  simp only [binary, operands, Option.toList_some, Option.toList_none, List.append_nil,
    List.cons_append, List.nil_append, List.mem_cons, List.not_mem_nil, or_false] at ho
  rcases ho with rfl | rfl
  · exact ha
  · exact hb

theorem isPlain_ternary {op : OpCode} (h : op.IsPlain) {a b c : Operand} (ha : a.isLabel = false)
    (hb : b.isLabel = false) (hc : c.isLabel = false) : (ternary op a b c).IsPlain := by
  refine ⟨h, fun o ho => ?_⟩
  simp only [ternary, operands, Option.toList_some, List.cons_append, List.nil_append,
    List.mem_cons, List.not_mem_nil, or_false] at ho
  rcases ho with rfl | rfl | rfl
  · exact ha
  · exact hb
  · exact hc

end Instruction

namespace Lowering

variable {w : Bool} {D : Prop} {P : Instruction → Prop} {α β : Type} {f : Frame} {s : State}

/-! ## Courses one behind the other -/

/-- A run that was in order is in order afterwards. -/
theorem Course.ready {m : Lower α} (h : Course D P f s m) (hr : D → Ready w f s) {a : α} {t : State}
    (hrun : m f s = .ok a t) : D → Ready w f t := by
  intro hD
  have hsafe := h.safe hD (hr hD)
  rw [hrun] at hsafe
  exact hsafe.1

theorem Course.grows {m : Lower α} (h : Course D P f s m) (hr : D → Ready w f s) {a : α} {t : State}
    (hrun : m f s = .ok a t) : D → s.session.Grows t.session := by
  intro hD
  have hsafe := h.safe hD (hr hD)
  rw [hrun] at hsafe
  exact hsafe.2

/-- The second part of a run starts where the first one ended, which is in order again. -/
theorem Course.andThen {m : Lower α} {k : α → Lower β} (hr : D → Ready w f s)
    (hm : Course D P f s m)
    (hk : ∀ a t, m f s = .ok a t → (D → Ready w f t) → Course D P f t (k a)) :
    Course D P f s (m >>= k) :=
  .bind hm fun a t hrun => hk a t hrun (hm.ready hr hrun)

theorem Course.getSession : Course D P f s getSession := .bind .get fun _ _ _ => .pure _

/-- Behind a look at the session, a run goes on in the same state. -/
theorem Course.withSession {k : Session → Lower β} (hk : Course D P f s (k s.session)) :
    Course D P f s (Lowering.getSession >>= k) := by
  refine .bind .getSession fun a t hrun => ?_
  cases hrun
  exact hk

theorem Course.withFrame {k : Frame → Lower β} (hk : Course D P f s (k f)) :
    Course D P f s (MonadReader.read >>= k) := by
  refine .bind .read fun a t hrun => ?_
  cases hrun
  exact hk

theorem Course.withState {k : State → Lower β} (hk : Course D P f s (k s)) :
    Course D P f s (MonadState.get >>= k) := by
  refine .bind .get fun a t hrun => ?_
  cases hrun
  exact hk

theorem Course.getBlock {id : Nat} (h : D → (s.session.block? id).isSome) :
    Course D P f s (getBlock id) := by
  refine .withSession ?_
  split
  · exact .pure _
  · next hb =>
    refine .defect _ fun hD => ?_
    have := h hD
    rw [hb] at this
    cases this

theorem Course.getSymbol {r : SymbolRef} (h : D → (s.session.symbol? r).isSome) :
    Course D P f s (getSymbol r) := by
  refine .withSession ?_
  split
  · exact .pure _
  · next hb =>
    refine .defect _ fun hD => ?_
    have := h hD
    rw [hb] at this
    cases this

/-! ## Steps that have a course wherever they start -/

/-- Every run of the step that starts in order has a course. -/
def Composed (w : Bool) (D : Prop) (P : Instruction → Prop) (m : Lower α) : Prop :=
  ∀ f s, (D → Ready w f s) → Course D P f s m

namespace Composed

theorem mono {Q : Instruction → Prop} (hPQ : ∀ i, P i → Q i) {m : Lower α} (h : Composed w D P m) :
    Composed w D Q m := fun f s hr => (h f s hr).mono hPQ

theorem pure (a : α) : Composed w D P (Pure.pure a : Lower α) := fun _ _ _ => .pure a

theorem bind {m : Lower α} {k : α → Lower β} (hm : Composed w D P m)
    (hk : ∀ a, Composed w D P (k a)) : Composed w D P (m >>= k) :=
  fun f s hr => (hm f s hr).andThen hr fun a t _ ht => hk a f t ht

theorem ite {c : Prop} [Decidable c] {m n : Lower α} (hm : Composed w D P m)
    (hn : Composed w D P n) : Composed w D P (if c then m else n) := by
  split
  · exact hm
  · exact hn

theorem onlyIf {c : Prop} [Decidable c] {m : Lower β} {k : Lower α} (hm : Composed w D P m)
    (hk : Composed w D P k) : Composed w D P (if c then m >>= fun _ => k else k) :=
  ite (bind hm fun _ => hk) hk

theorem read : Composed w D P (MonadReader.read : Lower Frame) := fun _ _ _ => .read

theorem get : Composed w D P (MonadState.get : Lower State) := fun _ _ _ => .get

theorem getSession : Composed w D P Lowering.getSession := fun _ _ _ => .getSession

theorem modifyState {g : State → State} (hs : ∀ s, (g s).session = s.session)
    (hn : ∀ s : State, s.Neat → (g s).Neat) : Composed w D P (modify g : Lower Unit) :=
  fun _ s _ => .modify (hs s) fun _ => hn s

theorem modifyNode {g : GraphNode → GraphNode}
    (hg : ∀ n, (g n).isSealed = n.isSealed ∧ (g n).block = n.block) :
    Composed w D P (Lowering.modifyNode g) := by
  refine modifyState (fun _ => rfl) fun s hs n hn => ?_
  rcases hn with rfl | hn
  · obtain ⟨hsealed, hblock⟩ := hs s.node (.inl rfl)
    exact ⟨(hg s.node).1.trans hsealed, (hg s.node).2 ▸ hblock⟩
  · exact hs n (.inr hn)

theorem withReader {g : Frame → Frame} (hg : ∀ f, (g f).site = f.site) {m : Lower α}
    (h : Composed w D P m) : Composed w D P (MonadWithReader.withReader g m : Lower α) :=
  fun f s hr => .withReader (hg f) (h (g f) s fun hD => (hr hD).site (hg f))

theorem forM {l : List α} {k : α → Lower Unit} (h : ∀ a ∈ l, Composed w D P (k a)) :
    Composed w D P (l.forM k) := by
  induction l with
  | nil => exact pure ()
  | cons a rest ih =>
    refine bind (h a (List.mem_cons_self ..)) fun _ => ih fun b hb => h b ?_
    exact List.mem_cons_of_mem a hb

theorem note (level : LogLevel) (topic : LogTopic) (message : String) :
    Composed w D P (Lowering.note level topic message) := fun _ _ _ => .note level topic message

theorem report {issue : Issue} (h : issue.isHalting = false) (message : String) (span : Span) :
    Composed w D P (Lowering.report issue message span) := fun _ _ _ => .report message span h

theorem halt {issue : Issue} (h : issue.isHalting = true) (message : String) (span : Span) :
    Composed w D P (Lowering.halt issue message span : Lower α) := fun _ _ _ => .halt message span h

theorem allocate (d : Declaration) : Composed w D P (Lowering.allocate d) := fun _ _ _ => .allocate d

theorem nextTemporary (letters : String) : Composed w D P (nextTemporary letters) := by
  intro f s _
  refine .withSession (.bind (.record ?_) fun _ _ _ => .pure _)
  exact .temporary

/-! ## Reading -/

theorem classScope : Composed w D P classScope := bind read fun _ => pure _

theorem withClass {k : Operand → Lower α} (hk : ∀ cls, Composed w D P (k (.cls cls))) :
    Composed w D P (classOperand >>= k) := by
  intro f s hr
  refine .bind (bind classScope (fun _ => pure _) f s hr) fun a t hrun => ?_
  cases hrun
  exact hk _ f s hr

theorem withBlock {k : Operand → Lower α} (hk : ∀ id, Composed w D P (k (.block id))) :
    Composed w D P (blockOperand >>= k) := by
  intro f s hr
  refine .bind (bind read (fun _ => pure _) f s hr) fun a t hrun => ?_
  cases hrun
  exact hk _ f s hr

theorem ownBlock {k : Block → Lower α} (hk : ∀ b, Composed w D P (k b)) :
    Composed w D P (do k (← Lowering.getBlock (← MonadReader.read).block)) := by
  intro f s hr
  refine .withFrame ?_
  exact (Course.getBlock fun hD => (hr hD).stands.block?_isSome).andThen hr fun b t _ ht => hk b f t ht

theorem pc : Composed w D P pc := by
  refine bind getSession fun s => ite (pure _) ?_
  exact ownBlock fun _ => pure _

theorem sight : Composed w D P sight := by
  intro f s hr
  refine .withFrame (.withSession ?_)
  split
  · next hnone =>
    refine .defect _ fun hD => ?_
    obtain ⟨blocks, hblocks⟩ := (hr hD).tidy.enclosing? (hr hD).stands.block?_isSome
    rw [hblocks] at hnone
    cases hnone
  · split
    · next body hbody =>
      refine .bind (.getBlock fun hD => ?_) fun _ _ _ => .pure _
      obtain ⟨hd, hs, _⟩ := (hr hD).stands.placed.body body hbody
      rw [← Session.header?_isSome, hs]
      rfl
    · exact .pure _

/-- Behind a look around, a run goes on in the same state. -/
theorem withSight {k : Sight → Lower α}
    (hk : ∀ f s blocks, (D → Ready w f s) → Course D P f s (k ⟨s.session, f, blocks⟩)) :
    Composed w D P (Lowering.sight >>= k) := by
  intro f s hr
  refine .bind (sight f s hr) fun v t hrun => ?_
  obtain ⟨rfl, hv, _⟩ := sight_eq_ok.mp hrun
  rw [hv]
  exact hk f _ _ hr

/-! ## Emitting -/

theorem emitWith {i : Instruction} (hi : ∀ debug, P { i with debug }) (span : Span)
    (debug : Option DebugRecord) : Composed w D P (emitWith i span debug) :=
  fun _ _ _ => .emitWith span debug (hi debug)

theorem emitSilent {i : Instruction} (hi : ∀ debug, P { i with debug }) (span : Span) :
    Composed w D P (emitSilent i span) := emitWith hi span none

theorem emitStepping {i : Instruction} (hi : ∀ debug, P { i with debug }) (span : Span)
    (steps : List (Option Nat)) : Composed w D P (emitStepping i span steps) :=
  bind pc fun _ => bind getSession fun _ => emitWith hi span _

theorem emit {i : Instruction} (hi : ∀ debug, P { i with debug }) (span : Span) :
    Composed w D P (emit i span) := emitStepping hi span []

section
open Instruction

theorem emitPush {operand : Operand} (h : operand.isLabel = false) (dims : Nat) (span : Span) :
    Composed w D IsPlain (emitPush operand dims span) :=
  withClass fun _ => emit (fun _ => isPlain_ternary (by decide : OpCode.push.IsPlain) h rfl rfl) span

theorem emitPushm {operand : Operand} (h : operand.isLabel = false) (cls : Option Nat)
    (span : Span) : Composed w D IsPlain (emitPushm operand cls span) :=
  withBlock fun _ => emit (fun _ => isPlain_ternary (by decide : OpCode.pushm.IsPlain) h rfl rfl) span

theorem emitPushlist (depth : Nat) (afterCall : Bool) (span : Span) :
    Composed w D IsPlain (emitPushlist depth afterCall span) := by
  refine withClass fun _ => withBlock fun _ => ?_
  refine emitSilent (fun _ => isPlain_ternary (by decide : OpCode.pushlist.IsPlain) ?_ rfl rfl) span
  split <;> rfl

theorem emitPushIndex {operand : Operand} (h : operand.isLabel = false) :
    Composed w D IsPlain (emitPushIndex operand) :=
  emitSilent (fun _ => isPlain_unary (by decide : OpCode.pushindex.IsPlain) h) .nil

theorem emitPushDims (dims : Nat) : Composed w D IsPlain (emitPushDims dims) :=
  withClass fun _ => emitSilent (fun _ => isPlain_binary (by decide : OpCode.push.IsPlain) rfl rfl) .nil

theorem emitPushType (type : Ty) : Composed w D IsPlain (emitPushType type) :=
  withClass fun _ => emitSilent (fun _ => isPlain_binary (by decide : OpCode.push.IsPlain) rfl rfl) .nil

theorem emitPushVarData (block dims : Nat) (type : Ty) :
    Composed w D IsPlain (emitPushVarData block dims type) := by
  refine withClass fun _ => ?_
  refine bind (emitSilent (fun _ => isPlain_binary (by decide : OpCode.push.IsPlain) rfl rfl) .nil) fun _ => ?_
  exact bind (emitSilent (fun _ => isPlain_binary (by decide : OpCode.push.IsPlain) rfl rfl) .nil) fun _ =>
    emitPushType type

theorem emitPop {operand : Operand} (h : operand.isLabel = false) (cls : Option Nat)
    (span : Span) : Composed w D IsPlain (emitPop operand cls span) :=
  emit (fun _ => isPlain_binary (by decide : OpCode.pop.IsPlain) h rfl) span

theorem emitPopSymbol (symbol : Symbol) (dims : Nat) (span : Span) :
    Composed w D IsPlain (emitPopSymbol symbol dims span) := by
  have hplain (debug : Option DebugRecord) : IsPlain
      { Instruction.ternary .pop (.ofSymbol symbol) (.cls symbol.classScope) (.arrayDim dims) with
        debug } :=
    isPlain_ternary (by decide : OpCode.pop.IsPlain) (Operand.isLabel_ofSymbol symbol) rfl rfl
  exact bind getSession fun _ => ite (emitSilent hplain span) (emit hplain span)

theorem emitStore (symbol : Symbol) (dims : Nat) (span : Span) :
    Composed w D IsPlain (emitStore symbol dims span) :=
  bind (emitPushVarData _ _ _) fun _ => emitPopSymbol symbol dims span

theorem emitPopw (symbol : Symbol) : Composed w D IsPlain (emitPopw symbol) :=
  emitSilent (fun _ => isPlain_binary (by decide : OpCode.popw.IsPlain) (Operand.isLabel_ofSymbol symbol) rfl) .nil

theorem emitPoplist (depth : Nat) (start : Option Nat) (span : Span) :
    Composed w D IsPlain (emitPoplist depth start span) :=
  withBlock fun _ => emit (fun _ => isPlain_ternary (by decide : OpCode.poplist.IsPlain) rfl rfl rfl) span

theorem emitAlloca (count : Nat) (isString : Bool) :
    Composed w D IsPlain (emitAlloca count isString) := by
  refine emitSilent (fun _ => isPlain_binary (by decide : OpCode.alloca.IsPlain) rfl ?_) .nil
  split <;> rfl

theorem emitHeapBox (symbol : Symbol) : Composed w D IsPlain (emitHeapBox symbol) := by
  unfold Lowering.emitHeapBox
  split
  · exact pure _
  · refine bind (emitSilent (fun _ => isPlain_binary (by decide : OpCode.mov.IsPlain) rfl rfl) .nil) fun _ => ?_
    exact bind (emitSilent (fun _ => isPlain_unary (by decide : OpCode.alloc.IsPlain) rfl) .nil) fun _ => pure _

theorem emitGuides (guides : List Guide) : Composed w D IsPlain (emitGuides guides) := by
  refine bind (forM fun g _ => ?_) fun _ => ?_
  · exact bind (emitPush rfl _ _) fun _ => pure _
  · exact bind (emitPushIndex rfl) fun _ => pure _

theorem emitBounce (block entry : Nat) (span : Span) :
    Composed w D IsPlain (emitBounce block entry span) :=
  emit (fun _ => isPlain_binary (by decide : OpCode.bounce.IsPlain) rfl rfl) span

theorem emitCallTo {opcode : OpCode} (h : opcode.IsPlain) (target : ProcRef) (depth : Nat)
    (span : Span) : Composed w D IsPlain (emitCallTo opcode target depth span) :=
  emit (fun _ => isPlain_ternary h rfl rfl rfl) span

theorem emitLateCall (index depth : Nat) (span : Span) :
    Composed w D IsPlain (emitLateCall index depth span) :=
  withClass fun _ => emit (fun _ => isPlain_ternary (by decide : OpCode.callr.IsPlain) rfl rfl rfl) span

end

end Composed

end Lowering

end Diglot
