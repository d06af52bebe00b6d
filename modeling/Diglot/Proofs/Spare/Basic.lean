import Diglot.Proofs.Mild.Basic

/-! # Steps that spare what is there already

`Sparing I f m Q`: a run of `m` in frame `f` that starts where `I` holds of the session ends where it
still holds, whether it finishes, halts or ends in a defect; and what it returns satisfies `Q`.

`Endures I known block`: `I` survives whatever the code of an expression does to a session, which is to
emit into the given block, to report, to write to the log, and to enter late-bound names. Entries below
`known` are not extended, and no boxes are made: that is left to declarations.
-/

set_option autoImplicit false

namespace Diglot

/-- The instruction makes a box. -/
def OpCode.isAlloc : OpCode → Bool
  | .alloc => true
  | _ => false

theorem OpCode.isAlloc_ofUnary (op : UnaryOperator) : (OpCode.ofUnary op).isAlloc = false := by
  cases op <;> rfl

theorem OpCode.isAlloc_ofBinary {op : Operator} {opcode : OpCode} (h : OpCode.ofBinary? op = some opcode) :
    opcode.isAlloc = false := by
  cases op <;> simp only [OpCode.ofBinary?, Option.some.injEq, reduceCtorEq] at h <;> subst h <;> rfl

namespace Lowering

/-- What holds of a session survives the code of an expression in a block. -/
structure Endures (I : Session → Prop) (known block : Nat) : Prop where
  log : ∀ s r, I s → I { s with log := s.log.push r }
  diagnostics : ∀ s d, I s → I { s with diagnostics := s.diagnostics.push d }
  emit : ∀ s i span, i.opcode.isAlloc = false → I s → I (s.emit block i span)
  lateVariable : ∀ s e, I s → I { s with lateVariables := s.lateVariables.push e }
  lateMember : ∀ s i g, known ≤ i → I s → I { s with lateVariables := s.lateVariables.modify i g }
  lateFunction : ∀ s e, I s → I { s with lateFunctions := s.lateFunctions.push e }
  known : ∀ s, I s → known ≤ s.lateVariables.size

/-- However a run ends, `I` still holds, and what it returns satisfies `Q`. -/
def Sparing {α : Type} (I : Session → Prop) (f : Frame) (m : Lower α) (Q : α → Prop) : Prop :=
  ∀ s, I s.session → I (ending (m f s)).session ∧ ∀ a t, m f s = .ok a t → Q a

/-- However a run ends, `I` still holds. -/
abbrev Spares {α : Type} (I : Session → Prop) (f : Frame) (m : Lower α) : Prop :=
  Sparing I f m fun _ => True

namespace Sparing

variable {α β : Type} {I : Session → Prop} {f : Frame} {Q : α → Prop} {R : β → Prop}

theorem spares {m : Lower α} (h : Sparing I f m Q) : Spares I f m :=
  fun s hs => ⟨(h s hs).1, fun _ _ _ => trivial⟩

theorem ok {m : Lower α} (h : Sparing I f m Q) {s t : State} {a : α} (hs : I s.session) (hrun : m f s = .ok a t) :
    I t.session := by
  have hends := (h s hs).1
  rwa [hrun] at hends

theorem pure {a : α} (h : Q a) : Sparing I f (Pure.pure a : Lower α) Q := by
  intro s hs
  refine ⟨hs, fun b t hrun => ?_⟩
  cases hrun
  exact h

theorem bind {m : Lower α} {k : α → Lower β} (hm : Sparing I f m Q)
    (hk : ∀ a, Q a → Sparing I f (k a) R) : Sparing I f (m >>= k) R := by
  intro s hs
  have hfirst := hm s hs
  rw [run_bind]
  cases hrun : m f s with
  | ok a t =>
    rw [hrun] at hfirst
    exact hk a (hfirst.2 a t rfl) t hfirst.1
  | error e t =>
    rw [hrun] at hfirst
    exact ⟨hfirst.1, fun _ _ h => by cases h⟩

theorem andThen {m : Lower α} {k : α → Lower β} (hm : Spares I f m)
    (hk : ∀ a, Sparing I f (k a) R) : Sparing I f (m >>= k) R := bind hm fun a _ => hk a

theorem ite {c : Prop} [Decidable c] {m n : Lower α} (hm : Sparing I f m Q) (hn : Sparing I f n Q) :
    Sparing I f (if c then m else n) Q := by
  split
  · exact hm
  · exact hn

theorem onlyIf {c : Prop} [Decidable c] {m : Lower β} {k : Lower α} (hm : Spares I f m)
    (hk : Sparing I f k Q) : Sparing I f (if c then m >>= fun _ => k else k) Q :=
  ite (andThen hm fun _ => hk) hk

theorem forM {l : List β} {k : β → Lower Unit} (h : ∀ a ∈ l, Spares I f (k a)) :
    Spares I f (l.forM k) := by
  induction l with
  | nil => exact pure trivial
  | cons a rest ih =>
    apply andThen (h a (List.mem_cons_self ..))
    exact fun _ => ih fun b hb => h b (List.mem_cons_of_mem a hb)

theorem withReader {g : Frame → Frame} {m : Lower α} (h : Sparing I (g f) m Q) :
    Sparing I f (MonadWithReader.withReader g m : Lower α) Q := h

theorem throw (stop : Stop) : Sparing I f (MonadExcept.throw stop : Lower α) Q :=
  fun _ hs => ⟨hs, fun _ _ h => by cases h⟩

theorem defect (d : Defect) : Sparing I f (Lowering.defect d : Lower α) Q := throw _

/-! ## Reading -/

theorem looking {m : Lower α} (h : ∀ s, ending (m f s) = s) : Spares I f m := by
  intro s hs
  rw [h]
  exact ⟨hs, fun _ _ _ => trivial⟩

theorem withFrame {k : Frame → Lower β} (h : Sparing I f (k f) R) :
    Sparing I f (MonadReader.read >>= k) R := h

theorem withSession {k : Session → Lower β} (h : ∀ s, I s → Sparing I f (k s) R) :
    Sparing I f (getSession >>= k) R := fun s hs => h s.session hs s hs

theorem withState {k : State → Lower β} (h : ∀ s, Sparing I f (k s) R) :
    Sparing I f (MonadState.get >>= k) R := fun s hs => h s s hs

theorem classScope : Spares I f classScope := looking fun _ => rfl

theorem classOperand : Spares I f classOperand := looking fun _ => rfl

theorem getBlock (id : Nat) : Spares I f (getBlock id) := by
  refine looking fun s => ?_
  rw [run_getBlock]
  cases s.session.block? id <;> rfl

theorem getSymbol (r : SymbolRef) : Spares I f (getSymbol r) := by
  refine looking fun s => ?_
  rw [run_getSymbol]
  cases s.session.symbol? r <;> rfl

theorem sight : Spares I f sight := by
  refine looking fun s => ?_
  rw [run_sight]
  cases sightIn f s.session <;> rfl

/-- What a name stands for is found out from a session in which `I` holds. -/
theorem withSight {k : Sight → Lower β}
    (h : ∀ s v, I s → sightIn f s = .ok v → Sparing I f (k v) R) : Sparing I f (Lowering.sight >>= k) R := by
  intro s hs
  rw [run_bind, run_sight]
  cases hv : sightIn f s.session with
  | error id => exact ⟨hs, fun _ _ h => by cases h⟩
  | ok v => exact h s.session v hs hv s hs

theorem pc : Spares I f pc := by
  refine withSession fun s _ => ite (pure trivial) (withFrame ?_)
  exact andThen (getBlock _) fun _ => pure trivial

/-! ## Changing the state -/

theorem modifyState {g : State → State} (h : ∀ s, (g s).session = s.session) :
    Spares I f (modify g : Lower Unit) := by
  intro s hs
  refine ⟨?_, fun _ _ _ => trivial⟩
  show I (g s).session
  rwa [h]

theorem modifyNode (g : GraphNode → GraphNode) : Spares I f (modifyNode g) :=
  modifyState fun _ => rfl

theorem modifySession {g : Session → Session} (h : ∀ s, I s → I (g s)) :
    Spares I f (modifySession g) := fun s hs => ⟨h s.session hs, fun _ _ _ => trivial⟩

/-- A declaration counts a place and enters its symbol, into a block or into a class. A static member is
entered into the first block as well. -/
theorem allocateWith {P : Symbol → Prop} {d : Declaration} (hd : ∀ s bucket, P (symbolOf d s f bucket))
    (hcounted : ∀ s bucket size, I s → I { s with counters := countersAfter d s bucket size })
    (hmember : ∀ s cls x, P x → I s → I { s with classes := s.classes.appendSymbol cls x })
    (hlocal : ∀ s id block x, P x → I s → I (s.enterLocal id { x with block })) :
    Spares I f (Lowering.allocate d) := by
  have hclass (cls : Nat) {x : Symbol} (hx : P x) : Spares I f (Lowering.appendMember cls x) := by
    refine withSession fun s _ => ?_
    split
    · exact defect _
    · refine andThen (modifySession fun t ht => hmember t cls x hx ht) fun _ => onlyIf ?_ (pure trivial)
      exact andThen (getBlock _) fun _ => modifySession fun t ht => hlocal t 0 0 x hx ht
  have hblock {x : Symbol} (hx : P x) : Spares I f (Lowering.appendLocal x) := by
    refine withFrame (andThen (getBlock _) fun b => andThen (modifySession fun t ht => ?_) fun _ => pure trivial)
    exact hlocal t f.block x.block x hx ht
  intro s hs
  unfold Lowering.allocate
  simp only [run_bind, run_read, run_getSession, run_modifySession]
  cases bucketOf s.session.isWatching f.scope d.isStatic with
  | classStatic cls => exact hclass cls (hd _ _) _ (hcounted _ _ _ hs)
  | classInstance cls => exact hclass cls (hd _ _) _ (hcounted _ _ _ hs)
  | _ => exact hblock (hd _ _) _ (hcounted _ _ _ hs)

section
variable {known : Nat} (hI : Endures I known f.block)
include hI

theorem note (level : LogLevel) (topic : LogTopic) (message : String) :
    Spares I f (note level topic message) := modifySession fun s hs => hI.log s _ hs

theorem report (issue : Issue) (message : String) (span : Span) :
    Spares I f (report issue message span) := by
  refine modifySession fun s hs => ?_
  exact hI.log _ _ (hI.diagnostics s _ hs)

theorem halt (issue : Issue) (message : String) (span : Span) :
    Sparing I f (halt issue message span : Lower α) Q := by
  refine withSession fun s _ => andThen (modifySession fun t ht => ?_) fun _ => throw _
  exact hI.log _ _ (hI.diagnostics t _ ht)

/-! ## Emitting -/

theorem emitWith {i : Instruction} (hi : i.opcode.isAlloc = false) (span : Span) (debug : Option DebugRecord) :
    Spares I f (emitWith i span debug) := by
  refine withFrame (withSession fun s _ => andThen pc fun p => ?_)
  refine onlyIf (note hI _ _ _) (andThen (modifySession fun t ht => ?_) fun _ => pure trivial)
  exact hI.emit t _ span hi ht

theorem emitSilent {i : Instruction} (hi : i.opcode.isAlloc = false) (span : Span) :
    Spares I f (emitSilent i span) := emitWith hI hi span none

theorem emitStepping {i : Instruction} (hi : i.opcode.isAlloc = false) (span : Span) (steps : List (Option Nat)) :
    Spares I f (emitStepping i span steps) :=
  andThen pc fun _ => withSession fun _ _ => emitWith hI hi _ _

theorem emit {i : Instruction} (hi : i.opcode.isAlloc = false) (span : Span) : Spares I f (emit i span) :=
  emitStepping hI hi span []

theorem emitPush (operand : Operand) (dims : Nat) (span : Span) :
    Spares I f (emitPush operand dims span) := andThen classOperand fun _ => emit hI rfl _

theorem emitPushm (operand : Operand) (cls : Option Nat) (span : Span) :
    Spares I f (emitPushm operand cls span) := withFrame (emit hI rfl _)

theorem emitPushlist (depth : Nat) (afterCall : Bool) (span : Span) :
    Spares I f (emitPushlist depth afterCall span) :=
  andThen classOperand fun _ => withFrame (emitSilent hI rfl _)

theorem emitPushIndex (operand : Operand) : Spares I f (emitPushIndex operand) := emitSilent hI rfl _

theorem emitPushDims (dims : Nat) : Spares I f (emitPushDims dims) :=
  andThen classOperand fun _ => emitSilent hI rfl _

theorem emitPop (operand : Operand) (cls : Option Nat) (span : Span) :
    Spares I f (emitPop operand cls span) := emit hI rfl _

theorem emitPopSymbol (symbol : Symbol) (dims : Nat) (span : Span) :
    Spares I f (emitPopSymbol symbol dims span) :=
  withSession fun _ _ => ite (emitSilent hI rfl _) (emit hI rfl _)

theorem emitStore (symbol : Symbol) (dims : Nat) (span : Span) :
    Spares I f (emitStore symbol dims span) := by
  refine andThen (andThen classOperand fun cls => ?_) fun _ => emitPopSymbol hI _ _ _
  refine andThen (emitSilent hI rfl _) fun _ => andThen (emitSilent hI rfl _) fun _ => ?_
  exact andThen classOperand fun _ => emitSilent hI rfl _

theorem emitPoplist (depth : Nat) (start : Option Nat) (span : Span) :
    Spares I f (emitPoplist depth start span) := withFrame (emit hI rfl _)

theorem emitAlloca (count : Nat) (isString : Bool) : Spares I f (emitAlloca count isString) :=
  emitSilent hI rfl _

/-- A box is made of what survives any instruction. -/
theorem emitHeapBox (hany : ∀ s i span, I s → I (s.emit f.block i span)) (symbol : Symbol) :
    Spares I f (emitHeapBox symbol) := by
  have hbox (i : Instruction) : Spares I f (Lowering.emitSilent i .nil) := by
    refine withFrame (withSession fun s _ => andThen pc fun p => ?_)
    refine onlyIf (note hI _ _ _) (andThen (modifySession fun t ht => ?_) fun _ => pure trivial)
    exact hany t _ _ ht
  unfold Lowering.emitHeapBox
  split
  · exact pure trivial
  · exact andThen (hbox _) fun _ => andThen (hbox _) fun _ => pure trivial

theorem emitGuides (guides : List Guide) : Spares I f (emitGuides guides) := by
  refine andThen (forM fun g _ => andThen (emitPush hI _ _ _) fun _ => pure trivial) fun _ => ?_
  exact andThen (emitPushIndex hI _) fun _ => pure trivial

theorem emitCallTo {opcode : OpCode} (hop : opcode.isAlloc = false) (target : ProcRef) (depth : Nat) (span : Span) :
    Spares I f (emitCallTo opcode target depth span) := emit hI hop _

theorem emitLateCall (index depth : Nat) (span : Span) : Spares I f (emitLateCall index depth span) :=
  andThen classOperand fun _ => emit hI rfl _

theorem emitLeave : Spares I f emitLeave := by
  refine withFrame (emit hI ?_ _)
  split <;> rfl

theorem emitResult (span : Span) : Spares I f (emitResult span) :=
  andThen classScope fun _ => andThen (emitPop hI _ _ _) fun _ => emitLeave hI

end

end Sparing

end Lowering

end Diglot
