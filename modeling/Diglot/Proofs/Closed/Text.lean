import Diglot.Proofs.Course.Store
import Diglot.Proofs.Flow.Stream

/-! # What a run writes

The text of a session is its code: the kind and the instructions of each block, and the watch stream.
A run that emits only instructions of some kind writes a sequence of them, to the end of its own block
or of the watch stream, and leaves all other text alone (`Course.writes`). This holds however the run
ends.
-/

set_option autoImplicit false

namespace Diglot

namespace Session

/-- The kind and the code of a block. -/
def text (s : Session) (id : Nat) : Option (BlockKind × Array Instruction) :=
  (s.block? id).map fun b => (b.kind, b.code)

theorem text_isSome (s : Session) (id : Nat) : (s.text id).isSome = true ↔ id < s.blocks.size := by
  simp [text, block?]

theorem text_modifyBlock {g : Block → Block} (hk : ∀ b, (g b).kind = b.kind)
    (hc : ∀ b, (g b).code = b.code) (s : Session) (id : Nat) : (s.modifyBlock id g).text = s.text := by
  funext other
  unfold text
  rw [block?_modifyBlock]
  split
  · cases s.block? other with
    | none => rfl
    | some b => simp [hk b, hc b]
  · rfl

/-- Every block begins at its first instruction, once it has one. -/
def Begun (s : Session) : Prop :=
  ∀ id b, s.block? id = some b → b.entry = if b.code.isEmpty then none else some 0

theorem Begun.modifyBlock {g : Block → Block}
    (hg : ∀ b : Block, (b.entry = if b.code.isEmpty then none else some 0) →
      (g b).entry = if (g b).code.isEmpty then none else some 0)
    {s : Session} (h : s.Begun) (id : Nat) : (s.modifyBlock id g).Begun := by
  intro other b hb
  rw [block?_modifyBlock] at hb
  split at hb
  · obtain ⟨c, hc, rfl⟩ := Option.map_eq_some_iff.mp hb
    exact hg c (h other c hc)
  · exact h other b hb

/-- Neither code nor diagnostics were written, and no unit was begun. -/
structure Silent (s t : Session) : Prop where
  text : t.text = s.text
  watch : t.watch = s.watch
  isWatching : t.isWatching = s.isWatching
  diagnostics : t.diagnostics = s.diagnostics
  units : t.counters.units = s.counters.units
  begun : s.Begun → t.Begun

theorem Silent.refl (s : Session) : s.Silent s := ⟨rfl, rfl, rfl, rfl, rfl, id⟩

theorem Silent.trans {s t u : Session} (h : s.Silent t) (h' : t.Silent u) : s.Silent u :=
  ⟨h'.text.trans h.text, h'.watch.trans h.watch, h'.isWatching.trans h.isWatching,
    h'.diagnostics.trans h.diagnostics, h'.units.trans h.units, h'.begun ∘ h.begun⟩

theorem silent_modifyBlock {g : Block → Block} (hk : ∀ b, (g b).kind = b.kind)
    (hc : ∀ b, (g b).code = b.code) (he : ∀ b, (g b).entry = b.entry) (s : Session) (id : Nat) :
    s.Silent (s.modifyBlock id g) := by
  refine ⟨text_modifyBlock hk hc s id, rfl, rfl, rfl, rfl, fun h => h.modifyBlock (fun b hb => ?_) id⟩
  rw [he, hc, hb]

end Session

namespace Lowering

variable {D : Prop} {P : Instruction → Prop} {α β : Type} {f : Frame} {s : State}

/-- The session behind a run, however it ended. -/
def final : EStateM.Result Stop State α → Session
  | .ok _ t => t.session
  | .error _ t => t.session

theorem final_bind {m : Lower α} {k : α → Lower β} {R : Session → Session → Prop}
    (hm : R s.session (final (m f s)))
    (hk : ∀ a t, m f s = .ok a t → R s.session t.session → R s.session (final (k a f t))) :
    R s.session (final ((m >>= k) f s)) := by
  rw [run_bind]
  cases hrun : m f s with
  | ok a t =>
    rw [hrun] at hm
    exact hk a t hrun hm
  | error e t =>
    rw [hrun] at hm
    exact hm

/-! ## Declarations are silent -/

theorem Quiet.silent {t u : Session} (h : Quiet t u) : t.Silent u := by
  cases h with
  | commit node _ =>
    refine Session.silent_modifyBlock ?_ ?_ ?_ t node.block
    · exact fun _ => rfl
    · exact fun _ => rfl
    · exact fun _ => rfl
  | _ => exact ⟨rfl, rfl, rfl, rfl, rfl, id⟩

theorem silent_appendLocal (x : Symbol) (f : Frame) (s : State) :
    s.session.Silent (final (appendLocal x f s)) := by
  simp only [appendLocal, run_bind, run_read, run_getBlock]
  cases s.session.block? f.block with
  | none => exact .refl _
  | some b =>
    refine Session.silent_modifyBlock ?_ ?_ ?_ s.session f.block
    · exact fun _ => rfl
    · exact fun _ => rfl
    · exact fun _ => rfl

theorem silent_appendMember (cls : Nat) (x : Symbol) (f : Frame) (s : State) :
    s.session.Silent (final (appendMember cls x f s)) := by
  simp only [appendMember, run_bind, run_getSession]
  cases s.session.classes.get? cls with
  | none => exact .refl _
  | some c =>
    have hclass : s.session.Silent
        { s.session with classes := s.session.classes.appendSymbol cls x } :=
      ⟨rfl, rfl, rfl, rfl, rfl, id⟩
    simp only [run_bind, run_modifySession, run_ite, run_pure, modifyBlock_run]
    split
    · cases Session.block? _ 0 with
      | none => exact hclass
      | some b =>
        refine hclass.trans (Session.silent_modifyBlock ?_ ?_ ?_ _ 0)
        · exact fun _ => rfl
        · exact fun _ => rfl
        · exact fun _ => rfl
    · exact hclass

theorem silent_allocate (d : Declaration) (f : Frame) (s : State) :
    s.session.Silent (final (allocate d f s)) := by
  unfold allocate
  simp only [run_bind, run_read, run_getSession, run_modifySession]
  generalize bucketOf s.session.isWatching f.scope d.isStatic = bucket
  generalize symbolOf d s.session f bucket = x
  have hcounters : s.session.Silent
      { s.session with counters := countersAfter d s.session bucket x.size } :=
    ⟨rfl, rfl, rfl, rfl, units_countersAfter d s.session bucket x.size, id⟩
  let t : State :=
    { s with session := { s.session with counters := countersAfter d s.session bucket x.size } }
  cases bucket with
  | classStatic cls => exact hcounters.trans (silent_appendMember cls x f t)
  | classInstance cls => exact hcounters.trans (silent_appendMember cls x f t)
  | watch => exact hcounters.trans (silent_appendLocal x f t)
  | frame => exact hcounters.trans (silent_appendLocal x f t)
  | global => exact hcounters.trans (silent_appendLocal x f t)

/-! ## Writing -/

/-- The instructions were written to the end of a block or, while watching, of the watch stream. -/
structure Writes (id : Nat) (l : Array Instruction) (s t : Session) : Prop where
  isWatching : t.isWatching = s.isWatching
  units : t.counters.units = s.counters.units
  watch : t.watch = if s.isWatching then s.watch ++ l else s.watch
  own : t.text id = if s.isWatching then s.text id else (s.text id).map fun p => (p.1, p.2 ++ l)
  others : ∀ j, j ≠ id → t.text j = s.text j
  begun : s.Begun → t.Begun

namespace Writes

variable {id : Nat} {l l' : Array Instruction} {t u v : Session}

theorem ofSilent (h : t.Silent u) : Writes id #[] t u := by
  refine ⟨h.isWatching, h.units, ?_, ?_, fun j _ => congrFun h.text j, h.begun⟩
  · simp [h.watch]
  · simp [h.text]

theorem trans (h : Writes id l t u) (h' : Writes id l' u v) : Writes id (l ++ l') t v := by
  refine ⟨h'.isWatching.trans h.isWatching, h'.units.trans h.units, ?_, ?_,
    fun j hj => (h'.others j hj).trans (h.others j hj), h'.begun ∘ h.begun⟩
  · rw [h'.watch, h.isWatching, h.watch]
    split
    · exact Array.append_assoc
    · rfl
  · rw [h'.own, h.isWatching, h.own]
    split
    · rfl
    · rw [Option.map_map]
      refine congrArg (fun g => (t.text id).map g) (funext fun p => ?_)
      exact congrArg (Prod.mk p.1) Array.append_assoc

theorem ofEmit (i : Instruction) (span : Span) : Writes id #[i] t (t.emit id i span) := by
  cases hw : t.isWatching with
  | true =>
    unfold Session.emit
    rw [if_pos hw]
    exact ⟨rfl, rfl, by simp [hw], by simp [hw, Session.text, Session.block?], fun _ _ => rfl, fun h => h⟩
  | false =>
    unfold Session.emit
    rw [if_neg (by simp [hw])]
    refine ⟨rfl, rfl, by simp [hw, Session.modifyBlock], ?_, fun j hj => ?_,
      fun h => Session.Begun.modifyBlock (fun b hb => ?_) (s := { t with debugMap := _ }) h id⟩
    · simp only [Session.text, Session.block?_modifyBlock, hw, Bool.false_eq_true, if_false, if_true,
        Option.map_map]
      refine congrArg (fun g => (t.block? id).map g) (funext fun b => ?_)
      simp
    · simp only [Session.text, Session.block?_modifyBlock, if_neg (Ne.symm hj)]
      rfl
    · -- The first instruction is the place where the block begins.
      rw [hb]
      cases hempty : b.code.isEmpty with
      | true => simp [Array.isEmpty_iff.mp hempty]
      | false => simp

end Writes

theorem silent_noteEmission (t : Session) (f : Frame) (pc : Nat) (i : Instruction) :
    t.Silent (t.noteEmission f pc i) := by
  unfold Session.noteEmission
  split
  · exact ⟨rfl, rfl, rfl, rfl, rfl, id⟩
  · exact .refl t

/-- An instruction that can be emitted is written. -/
theorem writes_emitWith (i : Instruction) (span : Span) (debug : Option DebugRecord)
    (h : s.session.CanEmit f.block) :
    Writes f.block #[{ i with debug }] s.session (final (emitWith i span debug f s)) := by
  rw [run_emitWith i span debug f s h]
  have hnote := silent_noteEmission s.session f (s.session.stream f.block).size { i with debug }
  have hsilent : Writes f.block #[] s.session _ := .ofSilent hnote
  have hboth := hsilent.trans (.ofEmit { i with debug } span)
  rwa [Array.empty_append] at hboth

/-- The run writes instructions of the given kind. -/
def Wrote (P : Instruction → Prop) (id : Nat) (s t : Session) : Prop :=
  ∃ l, (∀ i ∈ l, P i) ∧ Writes id l s t

theorem Wrote.ofSilent {id : Nat} {t u : Session} (h : t.Silent u) : Wrote P id t u :=
  ⟨#[], fun _ hi => absurd hi (Array.not_mem_empty _), .ofSilent h⟩

theorem Wrote.trans {id : Nat} {t u v : Session} (h : Wrote P id t u) (h' : Wrote P id u v) :
    Wrote P id t v := by
  obtain ⟨l, hl, hw⟩ := h
  obtain ⟨l', hl', hw'⟩ := h'
  refine ⟨l ++ l', fun i hi => ?_, hw.trans hw'⟩
  rcases Array.mem_append.mp hi with hi | hi
  · exact hl i hi
  · exact hl' i hi

theorem wrote_report (id : Nat) (t : Session) (d : Diagnostic) : Wrote P id t (t.report d) := by
  refine ⟨#[], fun _ hi => absurd hi (Array.not_mem_empty _), rfl, rfl, ?_, ?_, fun _ _ => rfl,
    fun h => h⟩
  · rw [Array.append_empty]
    split <;> rfl
  · simp only [Array.append_empty, Option.map_id']
    split <;> rfl

/-- What a run with a course writes, if not every instruction may be written. -/
theorem Course.wrote {m : Lower α} (h : Course D P f s m) (hP : ¬ ∀ i, P i) :
    Wrote P f.block s.session (final (m f s)) := by
  induction h with
  | pure a => exact .ofSilent (.refl _)
  | bind _ _ ihm ihk =>
    exact final_bind (R := Wrote P _) ihm fun a t hrun hm => hm.trans (ihk a t hrun)
  | read => exact .ofSilent (.refl _)
  | get => exact .ofSilent (.refl _)
  | @modify f s g hs _ =>
    change Wrote P f.block s.session (g s).session
    rw [hs]
    exact .ofSilent (.refl _)
  | defect d _ => exact .ofSilent (.refl _)
  | @withReader α f s g m hg _ ih =>
    have hblock : (g f).block = f.block :=
      (congrArg Frame.block hg : (g f).site.block = f.site.block)
    rw [← hblock]
    exact ih
  | note level topic message => exact .ofSilent ⟨rfl, rfl, rfl, rfl, rfl, id⟩
  | report message span _ => exact wrote_report _ _ _
  | halt message span _ => exact wrote_report _ _ _
  | @emitWith f s i span debug hi =>
    by_cases hcan : s.session.CanEmit f.block
    · refine ⟨_, fun j hj => ?_, writes_emitWith _ _ _ hcan⟩
      rw [Array.mem_singleton.mp hj]
      exact hi
    · rw [run_emitWith_error i span debug f s hcan]
      exact .ofSilent (.refl _)
  | patch hall _ => exact absurd hall hP
  | @allocate f s d => exact .ofSilent (silent_allocate d f s)
  | record hq => exact .ofSilent hq.silent
  | block _ _ hall _ => exact absurd hall hP
  | procedure _ _ hall _ _ => exact absurd hall hP
  | addClass _ hall _ => exact absurd hall hP
  | inClass _ hall _ => exact absurd hall hP

end Lowering

/-! ## Drafts of code

While statements are lowered, the code of their block is a draft: the jumps of branches that are not
complete, and of `break`s and `continue`s, wait for their targets (`Draft`). A patch fills one of these
holes. Code without holes that ends by leaving its block is closed (`Closed`).

Lowering in a block writes a draft there, and what it adds elsewhere is closed (`Laid`).
-/

/-- The instruction that leaves a block of the kind. -/
def BlockKind.leave : BlockKind → OpCode
  | function => .ret
  | _ => .retb

theorem BlockKind.leave_eq_ret {k : BlockKind} : k.leave = .ret ↔ k = .function := by
  cases k <;> decide

theorem BlockKind.leave_eq_retb {k : BlockKind} : k.leave = .retb ↔ k ≠ .function := by
  cases k <;> decide

namespace Instruction

/-- The instruction leaves only by `op`, and its places in the code are known and lie before `n`. -/
structure Lawful (op : OpCode) (n : Nat) (i : Instruction) : Prop where
  leaves : i.opcode = .ret ∨ i.opcode = .retb ∨ i.opcode = .retcn → i.opcode = op
  targets : ∀ l, Operand.label l ∈ i.operands → ∃ pc, l = some pc ∧ pc < n

theorem Lawful.mono {op : OpCode} {n m : Nat} {i : Instruction} (h : i.Lawful op n) (hnm : n ≤ m) :
    i.Lawful op m := by
  refine ⟨h.leaves, fun l hl => ?_⟩
  obtain ⟨pc, rfl, hpc⟩ := h.targets l hl
  exact ⟨pc, rfl, by omega⟩

theorem HasNoLabel.targets {i : Instruction} (h : i.HasNoLabel) {n : Nat} (l : Option Nat)
    (hl : Operand.label l ∈ i.operands) : ∃ pc, l = some pc ∧ pc < n := by
  have := h _ hl
  cases this

theorem IsPlain.lawful {i : Instruction} (h : i.IsPlain) (op : OpCode) (n : Nat) : i.Lawful op n := by
  refine ⟨fun hop => ?_, h.2.targets⟩
  rcases hop with hop | hop | hop <;> exact absurd (hop ▸ h.1) (by decide)

/-- The instruction becomes lawful once its target is filled in. -/
def Waits (op : OpCode) (n : Nat) (i : Instruction) : Prop :=
  ∀ m target, n ≤ m → target < m → ∃ j, i.patch target = .ok j ∧ j.Lawful op m

theorem Waits.mono {op : OpCode} {n m : Nat} {i : Instruction} (h : i.Waits op n) (hnm : n ≤ m) :
    i.Waits op m := fun k target hk => h k target (Nat.le_trans hnm hk)

theorem waits_jmp (op : OpCode) (n : Nat) (debug : Option DebugRecord) :
    ({ unary .jmp (.label none) with debug } : Instruction).Waits op n := by
  intro m target _ htarget
  refine ⟨_, rfl, fun hop => ?_, fun l hl => ?_⟩
  · rcases hop with hop | hop | hop <;> cases hop
  · exact ⟨target, by simpa [operands, retarget, unary, OpCode.targetSlot?] using hl, htarget⟩

theorem waits_jz (op : OpCode) (n : Nat) (r : Register) (debug : Option DebugRecord) :
    ({ binary .jz (.register r) (.label none) with debug } : Instruction).Waits op n := by
  intro m target _ htarget
  refine ⟨_, rfl, fun hop => ?_, fun l hl => ?_⟩
  · rcases hop with hop | hop | hop <;> cases hop
  · exact ⟨target, by simpa [operands, retarget, binary, OpCode.targetSlot?] using hl, htarget⟩

theorem waits_cjmp (op : OpCode) {n holds : Nat} (h : holds < n) (r : Register)
    (debug : Option DebugRecord) :
    ({ ternary .cjmp (.register r) (.label (some holds)) (.label none) with debug } :
      Instruction).Waits op n := by
  intro m target hm htarget
  refine ⟨_, rfl, fun hop => ?_, fun l hl => ?_⟩
  · rcases hop with hop | hop | hop <;> cases hop
  · have hl' : l = some holds ∨ l = some target := by
      simpa [operands, retarget, ternary, OpCode.targetSlot?] using hl
    rcases hl' with rfl | rfl
    · exact ⟨holds, rfl, by omega⟩
    · exact ⟨target, rfl, htarget⟩

end Instruction

/-! ### Code with holes -/

open Diglot.Flow (Extends)

/-- The new code continues the old one. In what was added, the instructions at the holes wait for
their targets, and all others are lawful; a target may be the place behind the last instruction. -/
structure Draft (op : OpCode) (old new : Array Instruction) (holes : List Nat) : Prop where
  keeps : Extends old new
  nodup : holes.Nodup
  waits : ∀ pc ∈ holes, old.size ≤ pc ∧ ∃ i, new[pc]? = some i ∧ i.Waits op (new.size + 1)
  lawful : ∀ pc i, old.size ≤ pc → new[pc]? = some i → pc ∉ holes → i.Lawful op (new.size + 1)

namespace Draft

variable {op : OpCode} {old mid new : Array Instruction} {holes holes' : List Nat}

theorem refl (op : OpCode) (code : Array Instruction) : Draft op code code [] := by
  refine ⟨.refl code, List.nodup_nil, fun _ h => absurd h List.not_mem_nil, fun pc i hpc hi _ => ?_⟩
  have := (Array.getElem?_eq_some_iff.mp hi).1
  omega

theorem lt (h : Draft op old new holes) {pc : Nat} (hpc : pc ∈ holes) : pc < new.size := by
  obtain ⟨_, i, hi, _⟩ := h.waits pc hpc
  exact (Array.getElem?_eq_some_iff.mp hi).1

theorem trans (h : Draft op old mid holes) (h' : Draft op mid new holes') :
    Draft op old new (holes ++ holes') := by
  have hsize := h'.keeps.size_le
  refine ⟨h.keeps.trans h'.keeps, ?_, fun pc hpc => ?_, fun pc i hpc hi hnot => ?_⟩
  · refine List.nodup_append.mpr ⟨h.nodup, h'.nodup, fun a ha b hb heq => ?_⟩
    have hlt := h.lt ha
    have hge := (h'.waits b hb).1
    omega
  · rcases List.mem_append.mp hpc with hpc | hpc
    · obtain ⟨hge, i, hi, hwaits⟩ := h.waits pc hpc
      exact ⟨hge, i, by rw [h'.keeps.same pc (h.lt hpc), hi], hwaits.mono (by omega)⟩
    · obtain ⟨hge, hwaits⟩ := h'.waits pc hpc
      exact ⟨Nat.le_trans h.keeps.size_le hge, hwaits⟩
  · rw [List.mem_append, not_or] at hnot
    by_cases hmid : pc < mid.size
    · rw [h'.keeps.same pc hmid] at hi
      exact (h.lawful pc i hpc hi hnot.1).mono (by omega)
    · exact h'.lawful pc i (by omega) hi hnot.2

theorem perm (h : Draft op old new holes) (hp : holes.Perm holes') : Draft op old new holes' := by
  refine ⟨h.keeps, hp.nodup_iff.mp h.nodup, fun pc hpc => h.waits pc (hp.mem_iff.mpr hpc), ?_⟩
  exact fun pc i hpc hi hnot => h.lawful pc i hpc hi fun hmem => hnot (hp.mem_iff.mp hmem)

theorem extends_append (code l : Array Instruction) : Extends code (code ++ l) :=
  ⟨by simp, fun _ hpc => Array.getElem?_append_left hpc⟩

/-- Lawful instructions were put behind the code. -/
theorem append {l : Array Instruction} (code : Array Instruction)
    (hl : ∀ i ∈ l, i.Lawful op ((code ++ l).size + 1)) : Draft op code (code ++ l) [] := by
  refine ⟨extends_append code l, List.nodup_nil, fun _ h => absurd h List.not_mem_nil, fun pc i hpc hi _ => ?_⟩
  rw [Array.getElem?_append_right hpc] at hi
  exact hl i (Array.mem_of_getElem? hi)

/-- A jump that waits was put behind the code. -/
theorem hole {i : Instruction} (code : Array Instruction) (hi : i.Waits op ((code ++ #[i]).size + 1)) :
    Draft op code (code ++ #[i]) [code.size] := by
  refine ⟨extends_append code #[i], by simp, fun pc hpc => ?_, fun pc j hpc hj hnot => ?_⟩
  · rw [List.mem_singleton.mp hpc]
    exact ⟨Nat.le_refl _, i, by simp, hi⟩
  · have hlt := (Array.getElem?_eq_some_iff.mp hj).1
    simp only [Array.size_append, List.size_toArray, List.length_singleton] at hlt
    exact absurd (List.mem_singleton.mpr (by omega)) hnot

/-- A hole is filled. -/
theorem fill {p : Nat} {j : Instruction} (h : Draft op old new (p :: holes))
    (hj : j.Lawful op (new.size + 1)) : Draft op old (new.setIfInBounds p j) holes := by
  obtain ⟨hnotin, hnodup⟩ := List.nodup_cons.mp h.nodup
  have hp := (h.waits p (List.mem_cons_self ..)).1
  have hsize : (new.setIfInBounds p j).size = new.size := Array.size_setIfInBounds
  have hother {pc : Nat} (hne : pc ≠ p) : (new.setIfInBounds p j)[pc]? = new[pc]? :=
    Array.getElem?_setIfInBounds_ne (Ne.symm hne)
  refine ⟨⟨by rw [hsize]; exact h.keeps.size_le, fun pc hpc => ?_⟩, hnodup, fun pc hpc => ?_,
    fun pc i hpc hi hnot => ?_⟩
  · rw [hother (by omega), h.keeps.same pc hpc]
  · rw [hother fun heq => hnotin (heq ▸ hpc), hsize]
    exact h.waits pc (List.mem_cons_of_mem p hpc)
  · rw [hsize]
    by_cases heq : pc = p
    · subst heq
      rw [Array.getElem?_setIfInBounds_self_of_lt (h.lt (List.mem_cons_self ..))] at hi
      cases hi
      exact hj
    · rw [hother heq] at hi
      exact h.lawful pc i hpc hi fun hmem => (List.mem_cons.mp hmem).elim heq hnot

end Draft

/-! ### Code that is closed -/

/-- The code leaves its block at its end and otherwise stays inside. -/
structure Closed (kind : BlockKind) (code : Array Instruction) : Prop where
  last : ∃ i, code.back? = some i ∧ i.opcode = kind.leave
  lawful : ∀ i ∈ code, i.Lawful kind.leave code.size

/-- A draft without holes is closed by a stretch of code that ends by leaving. -/
theorem Draft.closed {kind : BlockKind} {code l : Array Instruction} {i : Instruction}
    (h : Draft kind.leave #[] code []) (hl : ∀ j ∈ l, j.IsPlain) (hop : i.opcode = kind.leave)
    (hi : i.HasNoLabel) : Closed kind (code ++ l.push i) := by
  have hsize : code.size + 1 ≤ (code ++ l.push i).size := by simp
  refine ⟨⟨i, ?_, hop⟩, fun j hj => ?_⟩
  · rw [← Array.push_append]
    exact Array.back?_push
  · rcases Array.mem_append.mp hj with hj | hj
    · obtain ⟨pc, hlt, hpc⟩ := Array.mem_iff_getElem.mp hj
      have hget : code[pc]? = some j := by rw [Array.getElem?_eq_getElem hlt, hpc]
      exact (h.lawful pc j (Nat.zero_le _) hget List.not_mem_nil).mono hsize
    · rcases Array.mem_push.mp hj with hj | rfl
      · exact (hl j hj).lawful _ _
      · exact ⟨fun _ => hop, hi.targets⟩

end Diglot
