import Diglot.Proofs.Debug.Erasure
import Diglot.Proofs.Evolution.Steps

/-! # Where a step halts, if anywhere

`Outcome m o`: in whatever frame and state it is run, `m` halts at the issue `o`, or finishes if there is
none. Only a run that ends in a defect is left out. A step that has an outcome halts, or not, whatever the
tables and the options are.
-/

set_option autoImplicit false

namespace Diglot.Lowering

/-- All runs halt at the issue, or all of them finish if there is none; but for defects. -/
def Outcome {α : Type} (m : Lower α) (o : Option Issue) : Prop :=
  ∀ f s,
    match m f s with
    | .ok _ _ => o = none
    | .error (.halt d) _ => o = some d.issue
    | .error (.defect _) _ => True

namespace Outcome

variable {α β : Type} {o p : Option Issue}

theorem pure (a : α) : Outcome (Pure.pure a : Lower α) none := fun _ _ => rfl

theorem defect (d : Defect) : Outcome (Lowering.defect d : Lower α) o := fun _ _ => trivial

theorem halt (issue : Issue) (message : String) (span : Span) :
    Outcome (Lowering.halt issue message span : Lower α) (some issue) := fun _ _ => rfl

/-- The first of two steps that halts decides. -/
theorem bind {m : Lower α} {k : α → Lower β} (hm : Outcome m o) (hk : ∀ a, Outcome (k a) p) :
    Outcome (m >>= k) (o <|> p) := by
  intro f s
  have hfirst := hm f s
  rw [run_bind]
  revert hfirst
  cases m f s with
  | ok a t =>
    rintro rfl
    exact hk a f t
  | error e t =>
    cases e with
    | halt d =>
      rintro rfl
      rfl
    | defect d => exact id

theorem andThen {m : Lower α} {k : α → Lower β} (hm : Outcome m none) (hk : ∀ a, Outcome (k a) p) :
    Outcome (m >>= k) p := bind hm hk

theorem last {m : Lower α} {k : α → Lower β} (hm : Outcome m o) (hk : ∀ a, Outcome (k a) none) :
    Outcome (m >>= k) o := by
  have hboth := bind hm hk
  cases o <;> exact hboth

/-- Nothing is run behind a step that halts. -/
theorem stop {m : Lower α} {issue : Issue} (hm : Outcome m (some issue)) (k : α → Lower β) :
    Outcome (m >>= k) (some issue) := by
  intro f s
  have hfirst := hm f s
  rw [run_bind]
  revert hfirst
  cases m f s with
  | ok a t => exact nofun
  | error e t => cases e <;> exact id

theorem ite {c : Prop} [Decidable c] {m n : Lower α} (hm : Outcome m o) (hn : Outcome n o) :
    Outcome (if c then m else n) o := by
  split
  · exact hm
  · exact hn

theorem onlyIf {c : Prop} [Decidable c] {m : Lower β} {k : Lower α} (hm : Outcome m none)
    (hk : Outcome k o) : Outcome (if c then m >>= fun _ => k else k) o := ite (andThen hm fun _ => hk) hk

theorem forM {l : List β} {k : β → Lower Unit} (h : ∀ a ∈ l, Outcome (k a) none) :
    Outcome (l.forM k) none := by
  induction l with
  | nil => exact pure ()
  | cons a rest ih =>
    apply andThen (h a (List.mem_cons_self ..))
    exact fun _ => ih fun b hb => h b (List.mem_cons_of_mem a hb)

/-- A list of steps ends like the first one that halts. -/
theorem exists_forM {l : List β} {k : β → Lower Unit} (h : ∀ a ∈ l, ∃ o, Outcome (k a) o) :
    ∃ o, Outcome (l.forM k) o := by
  induction l with
  | nil => exact ⟨none, pure ()⟩
  | cons a rest ih =>
    obtain ⟨o, ho⟩ := h a (List.mem_cons_self ..)
    obtain ⟨p, hp⟩ := ih fun b hb => h b (List.mem_cons_of_mem a hb)
    exact ⟨_, bind ho fun _ => hp⟩

theorem withReader {g : Frame → Frame} {m : Lower α} (h : Outcome m o) :
    Outcome (MonadWithReader.withReader g m : Lower α) o := fun f s => h (g f) s

/-! ## Reading and changing the state -/

theorem read : Outcome (MonadReader.read : Lower Frame) none := fun _ _ => rfl

theorem get : Outcome (MonadState.get : Lower State) none := fun _ _ => rfl

theorem getSession : Outcome getSession none := fun _ _ => rfl

theorem classScope : Outcome classScope none := fun _ _ => rfl

theorem modifyState (g : State → State) : Outcome (modify g : Lower Unit) none := fun _ _ => rfl

theorem modifySession (g : Session → Session) : Outcome (modifySession g) none := fun _ _ => rfl

theorem modifyNode (g : GraphNode → GraphNode) : Outcome (modifyNode g) none := fun _ _ => rfl

theorem note (level : LogLevel) (topic : LogTopic) (message : String) :
    Outcome (note level topic message) none := fun _ _ => rfl

theorem report (issue : Issue) (message : String) (span : Span) :
    Outcome (report issue message span) none := fun _ _ => rfl

theorem getBlock (id : Nat) : Outcome (getBlock id) none := by
  intro f s
  rw [run_getBlock]
  cases s.session.block? id with
  | none => trivial
  | some b => rfl

theorem getSymbol (r : SymbolRef) : Outcome (getSymbol r) none := by
  intro f s
  rw [run_getSymbol]
  cases s.session.symbol? r with
  | none => trivial
  | some x => rfl

theorem sight : Outcome sight none := by
  intro f s
  rw [run_sight]
  cases sightIn f s.session with
  | error id => trivial
  | ok v => rfl

theorem modifyBlock (id : Nat) (g : Block → Block) : Outcome (modifyBlock id g) none :=
  andThen (getBlock id) fun _ => modifySession _

/-! ## Emitting -/

theorem pc : Outcome pc none :=
  andThen getSession fun _ => ite (pure _) (andThen read fun _ => andThen (getBlock _) fun _ => pure _)

theorem emitWith (i : Instruction) (span : Span) (debug : Option DebugRecord) :
    Outcome (emitWith i span debug) none := by
  refine andThen read fun _ => andThen getSession fun _ => andThen pc fun _ => ?_
  exact onlyIf (note _ _ _) (andThen (modifySession _) fun _ => pure _)

theorem emitSilent (i : Instruction) (span : Span) : Outcome (emitSilent i span) none := emitWith _ _ _

theorem emitStepping (i : Instruction) (span : Span) (steps : List (Option Nat)) :
    Outcome (emitStepping i span steps) none :=
  andThen pc fun _ => andThen getSession fun _ => emitWith _ _ _

theorem emit (i : Instruction) (span : Span) : Outcome (emit i span) none := emitStepping _ _ _

theorem classOperand : Outcome classOperand none := fun _ _ => rfl

theorem emitPush (operand : Operand) (dims : Nat) (span : Span) :
    Outcome (emitPush operand dims span) none := andThen classOperand fun _ => emit _ _

theorem emitPushm (operand : Operand) (cls : Option Nat) (span : Span) :
    Outcome (emitPushm operand cls span) none :=
  andThen (m := blockOperand) (fun _ _ => rfl) fun _ => emit _ _

theorem emitPushlist (depth : Nat) (afterCall : Bool) (span : Span) :
    Outcome (emitPushlist depth afterCall span) none :=
  andThen classOperand fun _ => andThen (m := blockOperand) (fun _ _ => rfl) fun _ => emitSilent _ _

theorem emitPushIndex (operand : Operand) : Outcome (emitPushIndex operand) none := emitSilent _ _

theorem emitPushDims (dims : Nat) : Outcome (emitPushDims dims) none :=
  andThen classOperand fun _ => emitSilent _ _

theorem emitPop (operand : Operand) (cls : Option Nat) (span : Span) :
    Outcome (emitPop operand cls span) none := emit _ _

theorem emitPopSymbol (symbol : Symbol) (dims : Nat) (span : Span) :
    Outcome (emitPopSymbol symbol dims span) none :=
  andThen getSession fun _ => ite (emitSilent _ _) (emit _ _)

theorem emitStore (symbol : Symbol) (dims : Nat) (span : Span) :
    Outcome (emitStore symbol dims span) none := by
  refine andThen (andThen classOperand fun cls => ?_) fun _ => emitPopSymbol _ _ _
  refine andThen (emitSilent _ _) fun _ => andThen (emitSilent _ _) fun _ => ?_
  exact andThen classOperand fun _ => emitSilent _ _

theorem emitPoplist (depth : Nat) (start : Option Nat) (span : Span) :
    Outcome (emitPoplist depth start span) none :=
  andThen (m := blockOperand) (fun _ _ => rfl) fun _ => emit _ _

theorem emitAlloca (count : Nat) (isString : Bool) : Outcome (emitAlloca count isString) none :=
  emitSilent _ _

theorem emitHeapBox (symbol : Symbol) : Outcome (emitHeapBox symbol) none := by
  unfold Lowering.emitHeapBox
  split
  · exact pure _
  · exact andThen (emitSilent _ _) fun _ => andThen (emitSilent _ _) fun _ => pure _

theorem emitGuides (guides : List Guide) : Outcome (emitGuides guides) none := by
  refine andThen (forM fun g _ => andThen (emitPush _ _ _) fun _ => pure _) fun _ => ?_
  exact andThen (emitPushIndex _) fun _ => pure _

theorem emitLeave : Outcome emitLeave none := andThen read fun _ => emit _ _

theorem emitResult (span : Span) : Outcome (emitResult span) none :=
  andThen classScope fun _ => andThen (emitPop _ _ _) fun _ => emitLeave

theorem emitCjmp (condition : Operand) (holds : Nat) (span : Span) :
    Outcome (emitCjmp condition holds span) none :=
  andThen getSession fun _ => ite (emitSilent _ _) (emitStepping _ _ _)

/-! ## Declaring and recording -/

theorem allocate (d : Declaration) : Outcome (allocate d) none := by
  intro f s
  rcases allocate_cases d f s with ⟨_, r, hrun⟩ | ⟨e, t, hrun⟩
  · rw [hrun]
  · rw [hrun]
    trivial

theorem recordRead (path : Path) (viaCall : Bool) : Outcome (recordRead path viaCall) none := by
  refine andThen read fun _ => ite (andThen get fun s => ?_) (pure _)
  exact onlyIf (defect _) (ite (andThen (note _ _ _) fun _ => modifyNode _) (pure _))

theorem recordIndexing (literals : List Segment) : Outcome (recordIndexing literals) none :=
  andThen read fun _ => ite (modifyNode _) (pure _)

theorem recordSplitDims (literals : List Segment) (written : Bool) :
    Outcome (recordSplitDims literals written) none :=
  andThen getSession fun _ => ite (modifyState _) (pure _)

theorem recordSplitChain : Outcome recordSplitChain none := by
  refine andThen sight fun v => andThen get fun s => andThen (modifyState _) fun _ => ?_
  split
  · exact pure _
  · exact andThen (note _ _ _) fun _ => recordRead _ _

/-! ## Literals -/

theorem guidesWanted : Outcome guidesWanted none := fun _ _ => rfl

theorem literalOperand (kind : LiteralKind) (source : String) (span : Span) :
    Outcome (literalOperand kind source span) none := by
  unfold Lowering.literalOperand
  split
  · exact defect _
  · split
    · exact andThen (report _ _ _) fun _ => pure _
    · exact pure _

theorem lowerString (source : String) (span : Span) : Outcome (lowerString source span) none := by
  refine andThen (forM fun c _ => andThen (emitPush _ _ _) fun _ => pure _) fun _ => ?_
  exact andThen (emitAlloca _ _) fun _ => pure _

/-- A literal that cannot be read is reported, and lowering goes on. -/
theorem lowerLiteral (kind : LiteralKind) (source : String) (span : Span) (expected : Ty) :
    Outcome (lowerLiteral kind source span expected) none := by
  refine andThen getSession fun s => andThen guidesWanted fun on => onlyIf (emitPushIndex _) ?_
  cases kind with
  | string => exact andThen (lowerString _ _) fun _ => pure _
  | _ => exact andThen (literalOperand _ _ _) fun _ => andThen (emitPush _ _ _) fun _ => pure _

end Outcome

end Diglot.Lowering
