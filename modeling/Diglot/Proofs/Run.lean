import Diglot.Compile

/-! # Running steps of lowering

A step of lowering is a function of the frame and the state. The lemmas here say what the building
blocks of the monad compute, so that a proof can follow a step without opening the monad.

* `run_bind` runs two steps one after the other; `bind_eq_ok` reads a finished run backwards.
* `Session.stream` is the code that is being emitted: the code of the current block or, while a
  watch expression is lowered, the watch code.
* `run_emitWith` and its variants say what emitting an instruction does.
-/

set_option autoImplicit false

namespace Diglot

namespace Lowering

section
variable {α β : Type} (f : Frame) (s : State)

/-! ## The monad -/

@[simp] theorem run_pure (a : α) : (pure a : Lower α) f s = .ok a s := rfl

@[simp] theorem run_bind (m : Lower α) (k : α → Lower β) :
    (m >>= k) f s =
      match m f s with
      | .ok a t => k a f t
      | .error e t => .error e t := by
  change EStateM.bind (m f) (fun a => k a f) s = _
  unfold EStateM.bind
  cases m f s <;> rfl

@[simp] theorem run_map (g : α → β) (m : Lower α) :
    (g <$> m) f s =
      match m f s with
      | .ok a t => .ok (g a) t
      | .error e t => .error e t := by
  change EStateM.map g (m f) s = _
  unfold EStateM.map
  cases m f s <;> rfl

@[simp] theorem run_read : (read : Lower Frame) f s = .ok f s := rfl

@[simp] theorem run_get : (get : Lower State) f s = .ok s s := rfl

@[simp] theorem run_set (t : State) : (set t : Lower PUnit) f s = .ok ⟨⟩ t := rfl

@[simp] theorem run_modify (g : State → State) :
    (modify g : Lower PUnit) f s = .ok ⟨⟩ (g s) := rfl

@[simp] theorem run_throw (e : Stop) : (throw e : Lower α) f s = .error e s := rfl

@[simp] theorem run_withReader (g : Frame → Frame) (m : Lower α) :
    (withReader g m : Lower α) f s = m (g f) s := rfl

@[simp] theorem run_tryCatch (m : Lower α) (handle : Stop → Lower α) :
    (tryCatch m handle : Lower α) f s =
      match m f s with
      | .ok a t => .ok a t
      | .error e t => handle e f t := by
  change EStateM.tryCatch (m f) (fun e => handle e f) s = _
  unfold EStateM.tryCatch
  cases m f s <;> rfl

@[simp] theorem run_ite (c : Prop) [Decidable c] (m n : Lower α) :
    (if c then m else n) f s = if c then m f s else n f s := by
  split <;> rfl

/-- A run of two steps that finishes is a run of the first that finishes and one of the second. -/
theorem bind_eq_ok {f : Frame} {s t : State} {m : Lower α} {k : α → Lower β} {b : β} :
    (m >>= k) f s = .ok b t ↔ ∃ a u, m f s = .ok a u ∧ k a f u = .ok b t := by
  rw [run_bind]
  cases m f s with
  | ok a u =>
    constructor
    · intro h
      exact ⟨a, u, rfl, h⟩
    · rintro ⟨a', u', h, hk⟩
      cases h
      exact hk
  | error e u =>
    constructor
    · intro h
      cases h
    · rintro ⟨_, _, h, _⟩
      cases h

/-! ## The session -/

@[simp] theorem run_getSession : getSession f s = .ok s.session s := rfl

@[simp] theorem run_modifySession (g : Session → Session) :
    modifySession g f s = .ok ⟨⟩ { s with session := g s.session } := rfl

@[simp] theorem run_modifyNode (g : GraphNode → GraphNode) :
    modifyNode g f s = .ok ⟨⟩ { s with node := g s.node } := rfl

@[simp] theorem run_classScope : classScope f s = .ok f.scope.classScope s := rfl

@[simp] theorem run_classOperand : classOperand f s = .ok (.cls f.scope.classScope) s := rfl

@[simp] theorem run_blockOperand : blockOperand f s = .ok (.block f.block) s := rfl

@[simp] theorem run_note (level : LogLevel) (topic : LogTopic) (message : String) :
    note level topic message f s =
      .ok ⟨⟩ { s with session := s.session.note level topic message } := rfl

@[simp] theorem run_report (issue : Issue) (message : String) (span : Span) :
    report issue message span f s =
      .ok ⟨⟩
        { s with session := s.session.report (s.session.diagnostic issue message span) } := rfl

@[simp] theorem run_halt (issue : Issue) (message : String) (span : Span) :
    (halt issue message span : Lower α) f s =
      .error (.halt (s.session.diagnostic issue message span))
        { s with session := s.session.report (s.session.diagnostic issue message span) } := rfl

@[simp] theorem run_defect (d : Defect) : (defect d : Lower α) f s = .error (.defect d) s := rfl

@[simp] theorem run_getBlock (id : Nat) :
    getBlock id f s =
      match s.session.block? id with
      | some b => .ok b s
      | none => .error (.defect (.missingBlock id)) s := by
  simp only [getBlock, run_bind, run_getSession]
  cases s.session.block? id <;> rfl

@[simp] theorem run_getSymbol (r : SymbolRef) :
    getSymbol r f s =
      match s.session.symbol? r with
      | some x => .ok x s
      | none => .error (.defect (.missingSymbol r)) s := by
  simp only [getSymbol, run_bind, run_getSession]
  cases s.session.symbol? r <;> rfl

theorem modifyBlock_run (id : Nat) (g : Block → Block) :
    modifyBlock id g f s =
      match s.session.block? id with
      | some _ => .ok ⟨⟩ { s with session := s.session.modifyBlock id g }
      | none => .error (.defect (.missingBlock id)) s := by
  simp only [modifyBlock, run_bind, run_getBlock]
  cases s.session.block? id <;> rfl

end

/-! ## The code that is being emitted -/

end Lowering

namespace Session

/-- The code that instructions of a block are put behind. -/
def stream (s : Session) (block : Nat) : Array Instruction :=
  if s.isWatching then s.watch else ((s.block? block).map Block.code).getD #[]

/-- There is code that instructions of a block can be put behind. -/
def CanEmit (s : Session) (block : Nat) : Prop := s.isWatching = true ∨ (s.block? block).isSome

/-- The log line that an instruction leaves if the options ask for it. -/
def noteEmission (s : Session) (f : Lowering.Frame) (pc : Nat) (i : Instruction) : Session :=
  if s.options.dumpByteCode then
    s.note .debug .code (Lowering.place s.isWatching f pc ++ " " ++ i.text)
  else s

theorem canEmit_noteEmission {s : Session} {block : Nat} (f : Lowering.Frame) (pc : Nat)
    (i : Instruction) : (s.noteEmission f pc i).CanEmit block ↔ s.CanEmit block := by
  unfold noteEmission
  split <;> rfl

theorem stream_noteEmission (s : Session) (block : Nat) (f : Lowering.Frame) (pc : Nat)
    (i : Instruction) : (s.noteEmission f pc i).stream block = s.stream block := by
  unfold noteEmission
  split <;> rfl

/-- An emitted instruction is the last one of its stream. -/
theorem stream_emit {s : Session} {block : Nat} (h : s.CanEmit block) (i : Instruction)
    (span : Span) : (s.emit block i span).stream block = (s.stream block).push i := by
  cases hw : s.isWatching with
  | true => simp [emit, stream, hw]
  | false =>
    have hb : (s.block? block).isSome := by simpa [CanEmit, hw] using h
    obtain ⟨b, hb⟩ := Option.isSome_iff_exists.mp hb
    have hb' : s.blocks[block]? = some b := hb
    simp [emit, stream, hw, block?, modifyBlock, Array.getElem?_modify, hb']

end Session

namespace Lowering

theorem run_pc (f : Frame) (s : State) (h : s.session.CanEmit f.block) :
    pc f s = .ok (s.session.stream f.block).size s := by
  cases hw : s.session.isWatching with
  | true => simp [pc, Session.stream, hw]
  | false =>
    have hb : (s.session.block? f.block).isSome := by simpa [Session.CanEmit, hw] using h
    obtain ⟨b, hb⟩ := Option.isSome_iff_exists.mp hb
    simp [pc, Session.stream, hw, hb]

theorem run_pc_error (f : Frame) (s : State) (h : ¬ s.session.CanEmit f.block) :
    pc f s = .error (.defect (.missingBlock f.block)) s := by
  have hw : s.session.isWatching = false := by
    cases hw : s.session.isWatching
    · rfl
    · exact absurd (Or.inl hw) h
  have hb : s.session.block? f.block = none := by
    cases hb : s.session.block? f.block
    · rfl
    · exact absurd (Or.inr (by simp [hb])) h
  simp [pc, hw, hb]

/-- Emitting an instruction puts it behind the others, and tells its place. -/
theorem run_emitWith (i : Instruction) (span : Span) (debug : Option DebugRecord) (f : Frame)
    (s : State) (h : s.session.CanEmit f.block) :
    emitWith i span debug f s =
      .ok (s.session.stream f.block).size
        { s with
          session := (s.session.noteEmission f (s.session.stream f.block).size
            { i with debug }).emit f.block { i with debug } span } := by
  simp only [emitWith, run_bind, run_read, run_getSession, run_pc f s h, Session.noteEmission]
  cases s.session.options.dumpByteCode <;> simp

theorem run_emitWith_error (i : Instruction) (span : Span) (debug : Option DebugRecord) (f : Frame)
    (s : State) (h : ¬ s.session.CanEmit f.block) :
    emitWith i span debug f s = .error (.defect (.missingBlock f.block)) s := by
  simp [emitWith, run_pc_error f s h]

end Lowering

/-! ## What is recorded as read -/

/-- The node with one more input, which counts as its first call if it is read through one and no other is. -/
def GraphNode.reading (n : GraphNode) (path : Path) (viaCall : Bool) : GraphNode :=
  { n with
    dependencies := n.dependencies ++ [path]
    firstCall := if viaCall && n.firstCall.isNone then some n.dependencies.length else n.firstCall }

/-- A path that the node does not lack is empty, or an input already. -/
theorem GraphNode.lacks_eq_false {n : GraphNode} {path : Path} :
    n.lacks path = false ↔ path = [] ∨ path ∈ n.dependencies := by
  simp [lacks, Decidable.or_iff_not_imp_left]

namespace Lowering

/-- Recording a read comes to its end unless the statement is closed. Where reads are recorded, a path that the
node lacks becomes an input, which the log tells, and otherwise nothing happens. -/
theorem recordRead_eq_ok {f : Frame} {s t : State} {path : Path} {viaCall : Bool} :
    recordRead path viaCall f s = .ok () t ↔
      (f.isTracked = true → s.node.isSealed = false) ∧
        t = if f.isTracked && s.node.lacks path then
            { s with
              session := s.session.note .trace .graph ("#" ++ toString s.node.uid ++ " depends on " ++ path.text)
              node := s.node.reading path viaCall }
          else s := by
  have hnode : (let n := s.node.addDependency path
      if viaCall && n.firstCall.isNone then n.markFirstCall else n) = s.node.reading path viaCall := by
    unfold GraphNode.reading
    dsimp only
    split <;> simp_all [GraphNode.addDependency, GraphNode.markFirstCall]
  simp only [recordRead, run_bind, run_read, run_get, run_ite, run_defect, run_note, run_modifyNode, run_pure, hnode]
  cases f.isTracked <;> cases s.node.isSealed <;> cases s.node.lacks path <;> simp [eq_comm]

/-- What is recorded is an input from then on. -/
theorem mem_of_recordRead {f : Frame} {s t : State} {path : Path} {viaCall : Bool} (htracked : f.isTracked = true)
    (hne : path ≠ []) (hrun : recordRead path viaCall f s = .ok () t) : path ∈ t.node.dependencies := by
  obtain ⟨-, rfl⟩ := recordRead_eq_ok.mp hrun
  rw [htracked, Bool.true_and]
  split
  · exact List.mem_append_right _ (List.mem_singleton_self path)
  · next hlacks => exact (GraphNode.lacks_eq_false.mp (eq_false_of_ne_true hlacks)).resolve_left hne

/-! ## What follows a case distinction

Some steps split in their middle and go on in the same way behind each of the cases. The rest of such a step has a
name here, for a proof to say once what holds of it. -/

/-- What `registerLateVariable` does in the session `s` where the chain has no entry to go on with. -/
def openLateVariable (name : String) (c : Cursor) (s : Session) : Lower (Nat × Cursor) := do
  let scope := (← read).scope
  let entry : LateVariable := { name, members := [], function := scope.function, classScope := scope.classScope }
  modifySession fun s => { s with lateVariables := s.lateVariables.push entry }
  return (s.lateVariables.size, { c with lateEntry := some s.lateVariables.size })

/-- What `lowerInvocation` does behind the call, which is known by its type and its segment. -/
def finishInvocation (part : LowerPart) (call : Call) (c : Cursor) (target : Option ProcRef) (p : Ty × Segment) :
    Lower Cursor := do
  lowerDims part call.dims
  let dims := call.dims.length
  if 0 < dims then
    let _ ← emitPushIndex (.arrayDim dims)
  let literals := literalDims (← read).dialect call.dims
  let c := c.track { p.2 with dims := literals }
  return { c with
    type := p.1.subscripted dims
    depth := 1
    afterCall := true
    anchor := none
    lateEntry := none
    hasCall := c.hasCall || target.isSome }

/-- What `lowerLate` does where it has warned. -/
def finishLate (part : LowerPart) (ident : Identifier) (c : Cursor) : Lower Cursor := do
  let p ← registerLateVariable ident.name c
  lowerDims part ident.dims
  if 0 < ident.dims.length then
    let _ ← emitPushDims ident.dims.length
  let _ ← emitPushm (.dynamic p.1) (← classScope) ident.span
  return { p.2 with type := .var, depth := p.2.depth + 1, isLate := true, anchor := none }

/-- What `lowerChain` does behind the guides, on segments that are unwrapped. -/
def finishChain (part : LowerPart) (segments : List Node) (isSingle : Bool) (span : Span) : Lower Ty := do
  let c ← lowerSegments part true segments (.start isSingle)
  if 1 < c.depth then
    let _ ← emitPushlist c.depth c.afterCall span
  recordRead c.path c.hasCall
  return if c.isStopped then .null else c.type

/-- What `returnStatement` does in a procedure that may return. -/
def finishReturn (value : Option Node) (span : Span) (procedure : Option Procedure) : Lower Unit := do
  let startPc ← pc
  let type ← lowerReturned value span
  let endPc := (← pc) - 1
  modifyNode fun n => { n with startPc, endPc }
  checkReturned procedure type span
  let _ ← emitResult span

end Lowering

end Diglot
