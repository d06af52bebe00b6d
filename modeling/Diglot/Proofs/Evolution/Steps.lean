import Diglot.Proofs.Evolution.Rules

/-! # The steps that change a session

Each primitive step of lowering evolves its session by one change, or by one behind a line of the log
(`Evolving.quiet`). So the code of expressions and of statements without control flow evolves it by *straight* code,
through which control goes from the first instruction to the last (`Evolving.straight`).
-/

set_option autoImplicit false

namespace Diglot

namespace Lowering

/-- A patch fills the target into the jump, or stops with a defect. -/
theorem patch_cases (pending target : Nat) (f : Frame) (s : State) :
    (∃ i j, (s.session.stream f.block)[pending]? = some i ∧ i.patch target = .ok j ∧
      patch pending target f s =
        .ok () { s with session := s.session.replaceCode f.block pending j }) ∨
    ∃ d, patch pending target f s = .error (.defect d) s := by
  cases hw : s.session.isWatching with
  | true =>
    cases hi : s.session.watch[pending]? with
    | none => exact .inr ⟨.patchOutside pending f.block, by simp [patch, hw, hi]⟩
    | some i =>
      cases hj : i.patch target with
      | error d => exact .inr ⟨d, by simp [patch, hw, hi, hj]⟩
      | ok j =>
        refine .inl ⟨i, j, by simp [Session.stream, hw, hi], hj, ?_⟩
        simp [patch, hw, hi, hj, Session.replaceCode]
  | false =>
    cases hb : s.session.block? f.block with
    | none => exact .inr ⟨.missingBlock f.block, by simp [patch, hw, hb]⟩
    | some b =>
      cases hi : b.code[pending]? with
      | none => exact .inr ⟨.patchOutside pending f.block, by simp [patch, hw, hb, hi]⟩
      | some i =>
        cases hj : i.patch target with
        | error d => exact .inr ⟨d, by simp [patch, hw, hb, hi, hj]⟩
        | ok j =>
          refine .inl ⟨i, j, by simp [Session.stream, hw, hb, hi], hj, ?_⟩
          simp [patch, hw, hb, hi, hj, Session.replaceCode, modifyBlock_run]

theorem isJump_of_patch {i j : Instruction} {target : Nat} (h : i.patch target = .ok j) :
    i.opcode.isJump = true := by
  unfold Instruction.patch at h
  cases hi : i.opcode.isJump with
  | true => rfl
  | false => simp [hi] at h

theorem appendLocal_cases (x : Symbol) (f : Frame) (s : State) :
    ((s.session.block? f.block).isSome ∧
      ∃ r, appendLocal x f s = .ok r { s with session := s.session.enterLocal f.block x }) ∨
    ∃ e t, appendLocal x f s = .error (.defect e) t := by
  cases hb : s.session.block? f.block with
  | none => exact .inr ⟨.missingBlock f.block, s, by simp [appendLocal, hb]⟩
  | some b =>
    refine .inl ⟨rfl, ⟨.block f.block, b.symbols.size⟩, ?_⟩
    simp [appendLocal, hb, Session.enterLocal]

theorem appendMember_cases (cls : Nat) (x : Symbol) (f : Frame) (s : State) :
    (((s.session.classes.get? cls).isSome ∧ (x.isStatic = true → (s.session.block? 0).isSome)) ∧
      ∃ r, appendMember cls x f s = .ok r { s with session := s.session.enterMember cls x }) ∨
    ∃ e t, appendMember cls x f s = .error (.defect e) t := by
  cases hc : s.session.classes.get? cls with
  | none => exact .inr ⟨.missingClass cls, s, by simp [appendMember, hc]⟩
  | some c =>
    cases hx : x.isStatic with
    | false =>
      refine .inl ⟨⟨rfl, by simp⟩, ⟨.cls cls, c.symbols.size⟩, ?_⟩
      simp [appendMember, hc, hx, Session.enterMember]
    | true =>
      cases hb : s.session.block? 0 with
      | none =>
        refine .inr ⟨.missingBlock 0, { s with
          session := { s.session with classes := s.session.classes.appendSymbol cls x } }, ?_⟩
        have hb' : s.session.blocks[0]? = none := hb
        simp [appendMember, hc, hx, modifyBlock_run, Session.block?, hb']
      | some b =>
        refine .inl ⟨⟨rfl, fun _ => rfl⟩, ⟨.cls cls, c.symbols.size⟩, ?_⟩
        have hb' : s.session.blocks[0]? = some b := hb
        simp [appendMember, hc, hx, modifyBlock_run, Session.enterMember, Session.block?, hb']

/-- Giving a variable its place counts no unit. -/
theorem units_countersAfter (d : Declaration) (s : Session) (bucket : Bucket) (size : Nat) :
    (countersAfter d s bucket size).units = s.counters.units := by
  unfold countersAfter
  cases bucket <;> dsimp only [Bucket.setNext] <;> split <;> rfl

theorem heap_countersAfter (d : Declaration) (s : Session) (bucket : Bucket) (size : Nat) :
    (countersAfter d s bucket size).heap = if d.region = .heap then s.counters.heap + 1 else s.counters.heap := by
  unfold countersAfter
  cases bucket <;> dsimp only <;> split <;> rfl

/-- A declaration enters its variable into its table, or stops with a defect. -/
theorem allocate_cases (d : Declaration) (f : Frame) (s : State) :
    (s.session.CanDeclare f d ∧
      ∃ r, allocate d f s = .ok r { s with session := s.session.declare f d }) ∨
    ∃ e t, allocate d f s = .error (.defect e) t := by
  unfold Session.CanDeclare Session.declare allocate
  simp only [run_bind, run_read, run_getSession, run_modifySession]
  generalize hk : bucketOf s.session.isWatching f.scope d.isStatic = bucket
  generalize hx : symbolOf d s.session f bucket = x
  have hstatic : x.isStatic = d.isStatic := by rw [← hx]; rfl
  rw [← hstatic]
  let t : State :=
    { s with session := { s.session with counters := countersAfter d s.session bucket x.size } }
  cases bucket with
  | classStatic cls => exact appendMember_cases cls x f t
  | classInstance cls => exact appendMember_cases cls x f t
  | watch => exact appendLocal_cases x f t
  | frame => exact appendLocal_cases x f t
  | global => exact appendLocal_cases x f t

end Lowering

namespace Lowering.Evolving

variable {α : Type} {K : OpCode → Prop}

theorem patch (hK : ∀ op : OpCode, op.isJump = true → K op) (pending target : Nat) :
    Evolving K (patch pending target) := by
  intro f s
  rcases patch_cases pending target f s with ⟨i, j, hi, hj, h⟩ | ⟨d, h⟩
  · rw [h]
    exact .single (.patch hi hj (hK _ (isJump_of_patch hj)))
  · rw [h]
    trivial

theorem allocate (d : Declaration) : Evolving K (allocate d) := by
  intro f s
  rcases allocate_cases d f s with ⟨hd, r, h⟩ | ⟨e, t, h⟩
  · rw [h]
    exact .single (.declare d hd)
  · rw [h]
    trivial

theorem nextTemporary (letters : String) : Evolving K (nextTemporary letters) :=
  fun _ _ => .single .temporary

theorem commit (node : GraphNode) : Evolving K (commit node) := by
  refine onlyIf (defect _) (bind (note _ _ _) fun _ => ?_)
  intro f s
  rw [modifyBlock_run]
  cases hb : s.session.block? node.block with
  | none => trivial
  | some b => exact .single (.commit node (Option.isSome_iff_exists.mpr ⟨b, hb⟩))

theorem quiet : QuietRule (Evolving K) where
  pure := pure
  bind := bind
  withReader hg hm := withReader hg hm
  read := read
  get := get
  getSession := getSession
  modifyState := modifyState
  defect := defect
  note := note
  report := report
  halt := halt
  lateVariable entry := fun _ _ => .single (.lateVariable entry)
  lateMember i name := fun _ _ => .single (.lateMember i name)
  lateFunction entry := fun _ _ => .single (.lateFunction entry)
  allocate := allocate
  nextTemporary := nextTemporary
  nextUid := fun _ _ => .single .uid
  commit := commit

/-! ## Emitting -/

theorem emitWith {i : Instruction} (hi : K i.opcode) (span : Span) (debug : Option DebugRecord) :
    Evolving K (emitWith i span debug) := by
  intro f s
  by_cases h : s.session.CanEmit f.block
  · rw [run_emitWith i span debug f s h]
    have hn : Evolves K f.site s.session
        (s.session.noteEmission f (s.session.stream f.block).size { i with debug }) := by
      unfold Session.noteEmission
      split
      · exact .single (.note ..)
      · exact .refl K _ _
    refine hn.step (.emit { i with debug } span hi ?_)
    exact (Session.canEmit_noteEmission f _ _).mpr h
  · rw [run_emitWith_error i span debug f s h]
    trivial

theorem emitSilent {i : Instruction} (hi : K i.opcode) (span : Span) :
    Evolving K (emitSilent i span) := emitWith hi span none

theorem emitStepping {i : Instruction} (hi : K i.opcode) (span : Span) (steps : List (Option Nat)) :
    Evolving K (emitStepping i span steps) :=
  bind quiet.pc fun _ => bind getSession fun _ => emitWith hi span _

theorem emit {i : Instruction} (hi : K i.opcode) (span : Span) : Evolving K (emit i span) :=
  emitStepping hi span []

theorem straight (hK : ∀ op : OpCode, op.IsStraight → K op) : StraightRule (Evolving K) where
  toQuietRule := quiet
  emitSilent hi span := emitSilent (hK _ hi.1) span
  emit hi span := emit (hK _ hi.1) span

end Lowering.Evolving

end Diglot
