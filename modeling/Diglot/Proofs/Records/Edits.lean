import Diglot.Proofs.Course.Emission
import Diglot.Proofs.Closed.Text
import Mathlib.Logic.Relation

/-! # What lowering writes into code and debug map

Of the code of the blocks and of the debug map, lowering changes nothing but this: it puts an instruction
behind the code of a block, with or without a debug record, and it fills the target into a jump.

* `Instruction.StepsTo`: the steps that the debug record of an instruction tells at a place. They follow
  from its operands.
* `Session.Edit` is one change of the code and the debug map, `Session.Edits` any number of them.
* `Editing m`: every run of `m`, however it ends, takes its session to the last one by edits. Watch code
  is no code of a block, so a watch expression edits nothing.

The primitive steps edit, and so does every statement (`Editing.statement`): a nested block or procedure is a new
block without code, and what is put there are edits of the same session. So is every unit (`Editing.lowerCode`) and
every watch expression (`Editing.lowerWatch`) a run of edits.
-/

set_option autoImplicit false

namespace Diglot

open Lowering

/-! ## The steps of an instruction -/

/-- The steps that an instruction at a place tells a debugger. A jump tells its labels, the pending ones
included, and any other instruction the next place. -/
inductive Instruction.StepsTo (i : Instruction) (pc : Nat) : List (Option Nat) → Prop where
  | next : i.opcode.IsPlain → StepsTo i pc [some (pc + 1)]
  | jmp (target : Option Nat) : i.opcode = .jmp → i.op1 = some (.label target) → StepsTo i pc [target]
  | cjmp (holds : Nat) (fails : Option Nat) : i.opcode = .cjmp → i.op2 = some (.label (some holds)) →
      i.op3 = some (.label fails) → StepsTo i pc [some holds, fails]
  | jz (target : Option Nat) : i.opcode = .jz → i.op2 = some (.label target) → StepsTo i pc [target]

namespace Instruction.StepsTo

variable {i j : Instruction} {pc target : Nat} {steps : List (Option Nat)}

/-- The record itself plays no part in the steps. -/
theorem withDebug (h : i.StepsTo pc steps) (debug : Option DebugRecord) :
    { i with debug }.StepsTo pc steps := by
  cases h with
  | next hop => exact .next hop
  | jmp target hop h1 => exact .jmp target hop h1
  | cjmp holds fails hop h2 h3 => exact .cjmp holds fails hop h2 h3
  | jz target hop h2 => exact .jz target hop h2

/-- A patch fills the same target into the jump and into its steps. -/
theorem patch (h : i.StepsTo pc steps) (hp : i.patch target = .ok j) :
    j.StepsTo pc (DebugRecord.resolve.go target steps) := by
  have hjump := isJump_of_patch hp
  unfold Instruction.patch at hp
  rw [hjump] at hp
  cases h with
  | next hop => exact absurd hjump (by simp [hop.1.1])
  | jmp t hop h1 =>
    cases t with
    | some t => simp [jumpTarget?, OpCode.targetSlot?, hop, h1] at hp
    | none =>
      simp only [jumpTarget?, retarget, OpCode.targetSlot?, hop, h1, Bool.not_true,
        Bool.false_eq_true, if_false, Except.ok.injEq] at hp
      subst hp
      exact .jmp (some target) rfl rfl
  | cjmp holds t hop h2 h3 =>
    cases t with
    | some t => simp [jumpTarget?, OpCode.targetSlot?, hop, h3] at hp
    | none =>
      simp only [jumpTarget?, retarget, OpCode.targetSlot?, hop, h3, Bool.not_true,
        Bool.false_eq_true, if_false, Except.ok.injEq] at hp
      subst hp
      exact .cjmp holds (some target) rfl h2 rfl
  | jz t hop h2 =>
    cases t with
    | some t => simp [jumpTarget?, OpCode.targetSlot?, hop, h2] at hp
    | none =>
      simp only [jumpTarget?, retarget, OpCode.targetSlot?, hop, h2, Bool.not_true,
        Bool.false_eq_true, if_false, Except.ok.injEq] at hp
      subst hp
      exact .jz (some target) rfl rfl

end Instruction.StepsTo

/-! ## Edits -/

namespace Session

/-- The code of a block; a block that does not exist has none. -/
def blockCode (s : Session) (id : Nat) : Array Instruction := ((s.block? id).map Block.code).getD #[]

/-- The debug record of an instruction that is put at a place: it has the span under which the place is
entered into the debug map, and tells the steps of the instruction. -/
def IsRecordAt (i : Instruction) (pc : Nat) (span : Span) (d : DebugRecord) : Prop :=
  d.span = span ∧ span.isValid = true ∧ i.StepsTo pc d.nextSteps

/-- One change of the code of the blocks and of the debug map. -/
inductive Edit (s : Session) : Session → Prop where
  /-- Neither of the two is changed. -/
  | beside {t : Session} : t.blockCode = s.blockCode → t.debugMap = s.debugMap → Edit s t
  | emit {block : Nat} {i : Instruction} {span : Span} : s.isWatching = false →
      (s.block? block).isSome →
      (∀ d, i.debug = some d → IsRecordAt i (s.blockCode block).size span d) →
      Edit s (s.emit block i span)
  | patch {block pending target : Nat} {i j : Instruction} : s.isWatching = false →
      (s.blockCode block)[pending]? = some i → i.patch target = .ok j →
      Edit s (s.replaceCode block pending j)

/-- Any number of changes. -/
abbrev Edits : Session → Session → Prop := Relation.ReflTransGen Edit

theorem stream_eq_blockCode {s : Session} (hw : s.isWatching = false) (block : Nat) :
    s.stream block = s.blockCode block := by
  unfold stream blockCode
  rw [hw]
  rfl

theorem blockCode_of_blocks {s t : Session} (h : t.blocks = s.blocks) : t.blockCode = s.blockCode := by
  funext id
  simp only [blockCode, block?, h]

theorem blockCode_modifyBlock {g : Block → Block} (hg : ∀ b, (g b).code = b.code) (s : Session)
    (id : Nat) : (s.modifyBlock id g).blockCode = s.blockCode := by
  funext other
  unfold blockCode
  rw [block?_modifyBlock]
  split
  · cases s.block? other with
    | none => rfl
    | some b => exact hg b
  · rfl

/-- A new block has no code, as it had none before it was there. -/
theorem blockCode_addBlock (s : Session) (kind : BlockKind) (dialect : Dialect) (parent : Option Nat) :
    (s.addBlock kind dialect parent).blockCode = s.blockCode := by
  have hpush : ∀ b : Block, b.code = #[] →
      ({ s with blocks := s.blocks.push b } : Session).blockCode = s.blockCode := by
    intro b hb
    funext id
    simp only [blockCode, block?, Array.getElem?_push]
    split
    · next heq => simp [heq, hb]
    · rfl
  cases parent with
  | none => exact hpush _ rfl
  | some p =>
    refine (blockCode_modifyBlock ?_ _ p).trans (hpush _ rfl)
    exact fun _ => rfl

theorem Edit.ofBlocks {s t : Session} (hb : t.blocks = s.blocks) (hm : t.debugMap = s.debugMap) :
    s.Edit t := .beside (blockCode_of_blocks hb) hm

theorem edit_modifyBlock {g : Block → Block} (hg : ∀ b, (g b).code = b.code) (s : Session) (id : Nat) :
    s.Edit (s.modifyBlock id g) := .beside (blockCode_modifyBlock hg s id) rfl

theorem edit_addBlock (s : Session) (kind : BlockKind) (dialect : Dialect) (parent : Option Nat) :
    s.Edit (s.addBlock kind dialect parent) := by
  refine .beside (blockCode_addBlock s kind dialect parent) ?_
  cases parent <;> rfl

theorem edit_modifyProcedure (s : Session) (r : ProcRef) (g : Procedure → Procedure) :
    s.Edit (s.modifyProcedure r g) := by
  unfold modifyProcedure
  split
  · exact .ofBlocks rfl rfl
  · exact .ofBlocks rfl rfl

/-- Watch code is put beside the code of the blocks. -/
theorem edit_emit_watching {s : Session} (hw : s.isWatching = true) (block : Nat) (i : Instruction)
    (span : Span) : s.Edit (s.emit block i span) := by
  unfold emit
  rw [if_pos hw]
  exact .ofBlocks rfl rfl

theorem edit_replaceCode_watching {s : Session} (hw : s.isWatching = true) (block pc : Nat)
    (i : Instruction) : s.Edit (s.replaceCode block pc i) := by
  unfold replaceCode
  rw [if_pos hw]
  exact .ofBlocks rfl rfl

end Session

namespace Lowering

/-! ## Runs that edit -/

/-- Every run takes its session to the last one by edits, however it ends. -/
def Editing {α : Type} (m : Lower α) : Prop :=
  ∀ (f : Frame) (s : State), s.session.Edits (final (m f s))

namespace Editing

variable {α β : Type}

theorem pure (a : α) : Editing (Pure.pure a : Lower α) := fun _ _ => .refl

theorem bind {m : Lower α} {k : α → Lower β} (hm : Editing m) (hk : ∀ a, Editing (k a)) :
    Editing (m >>= k) := by
  intro f s
  refine final_bind (R := Session.Edits) (hm f s) fun a t _ ht => ?_
  exact ht.trans (hk a f t)

theorem ite {c : Prop} [Decidable c] {m n : Lower α} (hm : Editing m) (hn : Editing n) :
    Editing (if c then m else n) := by
  split
  · exact hm
  · exact hn

/-- A step that is taken on a condition, before the steps behind it. -/
theorem onlyIf {c : Prop} [Decidable c] {m : Lower β} {k : Lower α} (hm : Editing m)
    (hk : Editing k) : Editing (if c then m >>= fun _ => k else k) := ite (bind hm fun _ => hk) hk

theorem read : Editing (MonadReader.read : Lower Frame) := fun _ _ => .refl

theorem get : Editing (MonadState.get : Lower State) := fun _ _ => .refl

theorem getSession : Editing Lowering.getSession := fun _ _ => .refl

theorem modifyState {g : State → State} (h : ∀ s, (g s).session = s.session) :
    Editing (modify g : Lower Unit) := by
  intro f s
  change s.session.Edits (g s).session
  rw [h]

theorem modifySession {g : Session → Session} (h : ∀ s : Session, s.Edit (g s)) :
    Editing (Lowering.modifySession g) := fun _ s => .single (h s.session)

theorem defect (d : Defect) : Editing (Lowering.defect d : Lower α) := fun _ _ => .refl

theorem withReader {g : Frame → Frame} {m : Lower α} (h : Editing m) :
    Editing (MonadWithReader.withReader g m : Lower α) := fun f s => h (g f) s

theorem forM {l : List α} {k : α → Lower Unit} (h : ∀ a ∈ l, Editing (k a)) : Editing (l.forM k) := by
  induction l with
  | nil => exact pure ()
  | cons a rest ih =>
    refine bind (h a (List.mem_cons_self ..)) fun _ => ih fun b hb => h b ?_
    exact List.mem_cons_of_mem a hb

/-- What is done after a stop edits as well. -/
theorem tryCatch {m : Lower α} {handle : Stop → Lower α} (hm : Editing m)
    (hh : ∀ e, Editing (handle e)) : Editing (tryCatch m handle : Lower α) := by
  intro f s
  rw [run_tryCatch]
  have hrun := hm f s
  cases hr : m f s with
  | ok a t =>
    rw [hr] at hrun
    exact hrun
  | error e t =>
    rw [hr] at hrun
    exact hrun.trans (hh e f t)

theorem note (level : LogLevel) (topic : LogTopic) (message : String) :
    Editing (Lowering.note level topic message) := modifySession fun _ => .ofBlocks rfl rfl

theorem report (issue : Issue) (message : String) (span : Span) :
    Editing (Lowering.report issue message span) := modifySession fun _ => .ofBlocks rfl rfl

theorem halt (issue : Issue) (message : String) (span : Span) :
    Editing (Lowering.halt issue message span : Lower α) :=
  fun _ _ => .single (.ofBlocks rfl rfl)

theorem getBlock (id : Nat) : Editing (getBlock id) := by
  refine bind getSession fun s => ?_
  split
  · exact pure _
  · exact defect _

/-! ## Declaring -/

theorem modifyBlock {g : Block → Block} (hg : ∀ b, (g b).code = b.code) (id : Nat) :
    Editing (modifyBlock id g) :=
  bind (getBlock id) fun _ => modifySession fun s => Session.edit_modifyBlock hg s id

theorem addBlock (kind : BlockKind) (dialect : Dialect) (parent : Nat) :
    Editing (addBlock kind dialect parent) := by
  refine bind getSession fun s => bind (getBlock parent) fun _ => bind ?_ fun _ => pure _
  exact modifySession fun s => Session.edit_addBlock s kind dialect (some parent)

theorem appendMember (cls : Nat) (x : Symbol) : Editing (appendMember cls x) := by
  refine bind getSession fun s => ?_
  split
  · exact defect _
  · refine bind (modifySession fun _ => .ofBlocks rfl rfl) fun _ => onlyIf (modifyBlock ?_ 0) (pure _)
    exact fun _ => rfl

theorem appendLocal (x : Symbol) : Editing (appendLocal x) := by
  refine bind read fun f => bind (getBlock _) fun b => bind ?_ fun _ => pure _
  refine modifySession fun s => Session.edit_modifyBlock ?_ s _
  exact fun _ => rfl

theorem allocate (d : Declaration) : Editing (allocate d) := by
  refine bind read fun f => bind getSession fun s => ?_
  refine bind (modifySession fun _ => .ofBlocks rfl rfl) fun _ => ?_
  split
  · exact appendMember _ _
  · exact appendMember _ _
  · exact appendLocal _

theorem nextTemporary (letters : String) : Editing (nextTemporary letters) := by
  refine bind getSession fun s => bind (modifySession fun _ => ?_) fun _ => pure _
  exact .ofBlocks rfl rfl

theorem commit (node : GraphNode) : Editing (commit node) := by
  refine onlyIf (defect _) (bind (note _ _ _) fun _ => modifyBlock ?_ _)
  exact fun _ => rfl

theorem quiet : QuietRule Editing where
  pure := pure
  bind := bind
  withReader _ hm := withReader hm
  read := read
  get := get
  getSession := getSession
  modifyState := modifyState
  defect := defect
  note := note
  report := report
  halt := halt
  lateVariable _ := modifySession fun _ => .ofBlocks rfl rfl
  lateMember _ _ := modifySession fun _ => .ofBlocks rfl rfl
  lateFunction _ := modifySession fun _ => .ofBlocks rfl rfl
  allocate := allocate
  nextTemporary := nextTemporary
  nextUid := bind getSession fun _ => bind (modifySession fun _ => .ofBlocks rfl rfl) fun _ => pure _
  commit := commit

/-! ## Emitting -/

/-- An instruction is emitted with a record of its own place, or with none. -/
theorem edits_emitWith (i : Instruction) (span : Span) (debug : Option DebugRecord) (f : Frame)
    (s : State) (h : ∀ d, debug = some d →
      Session.IsRecordAt i (s.session.stream f.block).size span d) :
    s.session.Edits (final (emitWith i span debug f s)) := by
  by_cases hcan : s.session.CanEmit f.block
  case neg =>
    rw [run_emitWith_error i span debug f s hcan]
    exact .refl
  rw [run_emitWith i span debug f s hcan]
  generalize ht : s.session.noteEmission f (s.session.stream f.block).size { i with debug } = t
  have hnote : s.session.Edit t := by
    subst ht
    unfold Session.noteEmission
    split
    · exact .ofBlocks rfl rfl
    · exact .ofBlocks rfl rfl
  have hstream : t.stream f.block = s.session.stream f.block := by
    subst ht
    exact Session.stream_noteEmission ..
  have hcan' : t.CanEmit f.block := by
    subst ht
    exact (Session.canEmit_noteEmission f _ _).mpr hcan
  refine .tail (.single hnote) ?_
  cases hw : t.isWatching with
  | true => exact Session.edit_emit_watching hw _ _ _
  | false =>
    refine .emit hw ?_ fun d hd => ?_
    · simpa [Session.CanEmit, hw] using hcan'
    · obtain ⟨hspan, hvalid, hsteps⟩ := h d hd
      rw [← Session.stream_eq_blockCode hw, hstream]
      exact ⟨hspan, hvalid, hsteps.withDebug _⟩

theorem emitSilent (i : Instruction) (span : Span) : Editing (emitSilent i span) :=
  fun f s => edits_emitWith i span none f s fun _ hd => by cases hd

/-- A stepping instruction tells its steps, unless its span points nowhere. -/
theorem emitStepping {i : Instruction} {span : Span} {steps : List (Option Nat)}
    (h : span.isValid = true → ∀ pc, i.StepsTo pc (if steps.isEmpty then [some (pc + 1)] else steps)) :
    Editing (emitStepping i span steps) := by
  intro f s
  unfold Lowering.emitStepping
  by_cases hcan : s.session.CanEmit f.block
  case neg =>
    rw [run_bind, run_pc_error f s hcan]
    exact .refl
  simp only [run_bind, run_pc f s hcan, run_getSession]
  refine edits_emitWith i span _ f s fun d hd => ?_
  unfold debugRecord? at hd
  split at hd
  · next hrecords =>
    obtain rfl := Option.some.inj hd
    have hvalid := (Bool.and_eq_true _ _ ▸ hrecords).2
    exact ⟨rfl, hvalid, h hvalid _⟩
  · cases hd

theorem emit {i : Instruction} (hi : i.opcode.IsPlain) (span : Span) : Editing (emit i span) :=
  emitStepping fun _ _ => .next hi

/-! ## Patching -/

theorem patch (pending target : Nat) : Editing (patch pending target) := by
  intro f s
  rcases patch_cases pending target f s with ⟨i, j, hi, hj, h⟩ | ⟨d, h⟩
  · rw [h]
    refine .single ?_
    cases hw : s.session.isWatching with
    | true => exact Session.edit_replaceCode_watching hw _ _ _
    | false => exact .patch hw (Session.stream_eq_blockCode hw _ ▸ hi) hj
  · rw [h]
    exact .refl

/-! ## Straight code -/

theorem straight : StraightRule Editing where
  toQuietRule := quiet
  emitSilent _ span := emitSilent _ span
  emit := emit

theorem emitJmp (target : Option Nat) (span : Span) : Editing (emitJmp target span) :=
  emitStepping fun _ _ => .jmp target rfl rfl

theorem emitCjmp (condition : Operand) (holds : Nat) (span : Span) :
    Editing (emitCjmp condition holds span) := by
  refine bind getSession fun _ => ite (emitSilent _ span) (emitStepping fun _ _ => ?_)
  exact .cjmp holds none rfl rfl rfl

/-- The steps of the jump leave out the place behind it. -/
theorem emitJz (condition : Operand) (span : Span) : Editing (emitJz condition span) :=
  emitStepping fun _ _ => .jz none rfl rfl

/-- What leaves points nowhere in the source, and so has no record. -/
theorem emitLeave : Editing emitLeave := bind read fun _ => emitStepping fun hvalid => by cases hvalid

/-! ## Frames of their own -/

/-- What is put aside while nested code is lowered is no part of the session. -/
theorem nested (frame : Frame) {m : Lower α} (h : Editing m) : Editing (nested frame m) := by
  intro f s
  have hrun := h frame { session := s.session }
  rw [run_nested]
  cases hr : m frame { session := s.session } with
  | ok a t =>
    rw [hr] at hrun
    exact hrun
  | error e t =>
    rw [hr] at hrun
    exact hrun

theorem countingLocals {m : Lower Unit} (h : Editing m) : Editing (countingLocals m) := by
  have hset (n : Nat) : Editing (Lowering.modifySession fun s =>
      { s with counters := { s.counters with locals := n } }) :=
    modifySession fun _ => .ofBlocks rfl rfl
  refine bind getSession fun s => bind (hset 0) fun _ => ?_
  refine bind (tryCatch h fun e => bind (hset _) fun _ => fun _ _ => .refl) fun _ => ?_
  exact bind getSession fun _ => bind (hset _) fun _ => pure _

/-! ## Declarations -/

theorem registerProcedure (p : Procedure) : Editing (registerProcedure p) := by
  refine bind read fun f => bind getSession fun s => ?_
  split
  · split
    · exact defect _
    · exact bind (modifySession fun _ => .ofBlocks rfl rfl) fun _ => pure _
  · exact bind (modifySession fun _ => .ofBlocks rfl rfl) fun _ => pure _

theorem declareParams (params : List Argument) : Editing (declareParams params) :=
  forM fun _ _ => bind (allocate _) fun _ => pure _

section
variable {statement : LowerStatement} (h : ∀ n, Editing (statement n))
include h

theorem lowerUnit (block : Nat) (scope : Scope) (dialect : Dialect) (unit : List Node)
    (params : List Argument) : Editing (lowerUnit statement block scope dialect unit params) := by
  refine nested _ (bind (declareParams params) fun _ => ?_)
  exact bind (quiet.lowerAll h unit) fun _ => straight.closeUnit emitLeave unit

theorem lowerBlock (dialect : Dialect) (body : List Node) (span : Span) :
    Editing (lowerBlock statement dialect body span) := by
  refine bind read fun f => bind (addBlock _ _ _) fun child => ?_
  refine bind (modifyBlock ?_ child) fun _ => bind (lowerUnit h _ _ _ _ _) fun _ => ?_
  · exact fun _ => rfl
  · exact bind (getBlock child) fun _ => bind (straight.emitBounce _ _ _) fun _ => pure _

theorem lowerFunction (fn : Function) (isGenerated : Bool) :
    Editing (lowerFunction statement fn isGenerated) := by
  refine bind (quiet.resolveType _ _) fun _ => bind (quiet.resolveParams _) fun _ => ?_
  refine bind (quiet.lowerAttributes _) fun _ => bind (registerProcedure _) fun r => ?_
  refine bind read fun f => bind (addBlock _ _ _) fun body => ?_
  refine bind (modifyBlock ?_ body) fun _ => ?_
  · exact fun _ => rfl
  refine bind (modifySession fun s => Session.edit_modifyProcedure s r _) fun _ => ?_
  refine bind (note _ _ _) fun _ => bind (countingLocals (lowerUnit h _ _ _ _ _)) fun _ => ?_
  exact bind (getBlock body) fun _ => modifySession fun s => Session.edit_modifyProcedure s r _

theorem lowerClass (c : ClassDecl) : Editing (lowerClass statement c) := by
  refine bind (quiet.resolveBase c) fun base => bind (quiet.lowerAttributes _) fun _ => ?_
  refine bind getSession fun s => ?_
  split
  · exact halt _ _ _
  · refine bind (modifySession fun _ => .ofBlocks rfl rfl) fun _ => bind (note _ _ _) fun _ => ?_
    exact withReader (quiet.lowerClassBody (lowerFunction h) c)

theorem lowerTopLevelClass (c : ClassDecl) : Editing (lowerTopLevelClass statement c) := by
  refine bind (bind read fun f => bind (getBlock _) fun _ => pure _) fun _ => ?_
  exact ite (lowerClass h c) (halt _ _ _)

end

/-! ## All code -/

theorem free : StatementRule Editing where
  toStraightRule := straight
  emitJmp := emitJmp
  emitCjmp := emitCjmp
  emitJz := emitJz
  emitLeave := emitLeave
  patch := patch
  lowerBlock := lowerBlock
  lowerFunction := lowerFunction
  lowerTopLevelClass := lowerTopLevelClass

theorem statement (node : Node) : Editing (statement node) := free.statement node

theorem lowerCode (unit : List Node) : Editing (lowerCode unit) :=
  bind (quiet.lowerAll statement unit) fun _ => straight.closeUnit emitLeave unit

theorem lowerWatch (node : Node) : Editing (lowerWatch node) := by
  refine bind quiet.pc fun _ => bind (straight.expression _) fun _ => bind (nextTemporary _) fun _ => ?_
  refine bind (allocate _) fun r => bind (quiet.getSymbol r) fun symbol => bind (emitSilent _ _) fun _ => ?_
  refine bind (emitStepping fun hvalid => ?_) fun _ => pure _
  cases hvalid

end Editing

end Lowering

end Diglot
