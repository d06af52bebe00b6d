import Diglot.Proofs.Evolution.Statement
import Diglot.Proofs.Flow.Structured

/-! # Streams in an evolving session

While no watch expression is lowered, the stream of a block is its code. Lowering in a frame leaves
the code of other blocks alone, and if it emits straight code only, it adds to the code of its own
block and changes nothing of it.
-/

set_option autoImplicit false

namespace Diglot

namespace Session

theorem stream_modifyBlock {g : Block → Block} (hg : ∀ b, (g b).code = b.code) (s : Session)
    (id block : Nat) : (s.modifyBlock id g).stream block = s.stream block := by
  have hwatch : (s.modifyBlock id g).isWatching = s.isWatching := rfl
  unfold stream
  rw [hwatch]
  split
  · rfl
  · rw [block?_modifyBlock]
    split
    · cases s.block? block with
      | none => rfl
      | some b => simp [hg b]
    · rfl

theorem stream_addBlock {s : Session} {block : Nat} (h : block < s.blocks.size) (kind : BlockKind)
    (dialect : Dialect) (parent : Option Nat) :
    (s.addBlock kind dialect parent).stream block = s.stream block := by
  have hpush : ∀ b : Block, ({ s with blocks := s.blocks.push b }).stream block = s.stream block := by
    intro b
    simp [stream, block?, Array.getElem?_push, Nat.ne_of_lt h]
  cases parent with
  | none => exact hpush _
  | some p =>
    refine Eq.trans (stream_modifyBlock ?_ _ p block) (hpush _)
    exact fun _ => rfl

theorem stream_replaceCode {s : Session} {block : Nat} (hw : s.isWatching = false)
    (hb : block < s.blocks.size) (p : Nat) (i : Instruction) :
    (s.replaceCode block p i).stream block = (s.stream block).setIfInBounds p i := by
  have hblock : s.blocks[block]? = some (s.blocks[block]) := Array.getElem?_eq_getElem hb
  simp [replaceCode, stream, hw, modifyBlock, block?, Array.getElem?_modify, hblock]

section
variable (s : Session) (r : ProcRef) (g : Procedure → Procedure) (scope : Lowering.Scope)
  (p : Procedure) (x : Symbol) (cls block id : Nat)

@[simp] theorem isWatching_modifyProcedure :
    (s.modifyProcedure r g).isWatching = s.isWatching := by
  unfold modifyProcedure
  split <;> rfl

@[simp] theorem stream_modifyProcedure :
    (s.modifyProcedure r g).stream block = s.stream block := by
  unfold modifyProcedure
  split <;> rfl

@[simp] theorem isWatching_register : (s.register scope p).isWatching = s.isWatching := by
  unfold register
  split <;> rfl

@[simp] theorem stream_register : (s.register scope p).stream block = s.stream block := by
  unfold register
  split <;> rfl

@[simp] theorem isWatching_addBlock (kind : BlockKind) (dialect : Dialect)
    (parent : Option Nat) : (s.addBlock kind dialect parent).isWatching = s.isWatching := by
  cases parent <;> rfl

theorem isWatching_enterMember : (s.enterMember cls x).isWatching = s.isWatching := by
  unfold enterMember
  split <;> rfl

theorem size_blocks_enterMember : (s.enterMember cls x).blocks.size = s.blocks.size := by
  unfold enterMember
  split <;> simp

theorem stream_enterMember : (s.enterMember cls x).stream block = s.stream block := by
  unfold enterMember
  split
  · refine stream_modifyBlock ?_ { s with classes := s.classes.appendSymbol cls x } 0 block
    exact fun _ => rfl
  · rfl

theorem stream_enterLocal : (s.enterLocal id x).stream block = s.stream block := by
  refine stream_modifyBlock ?_ s id block
  exact fun _ => rfl

end

end Session

namespace Lowering

variable {K : OpCode → Prop} {f : Frame} {s t : Session}

/-! ## One change -/

theorem Change.isWatching_eq (h : Change K f s t) : t.isWatching = s.isWatching := by
  cases h with
  | emit =>
    unfold Session.emit
    split <;> rfl
  | patch =>
    unfold Session.replaceCode
    split <;> rfl
  | declare d =>
    rcases s.declare_cases f d with ⟨cls, counters, -, -, -, -, h⟩ | ⟨counters, -, -, h⟩
    · rw [h, Session.isWatching_enterMember]
    · rw [h]
      rfl
  | _ => rfl

theorem Change.size_blocks (h : Change K f s t) : t.blocks.size = s.blocks.size := by
  cases h with
  | emit =>
    unfold Session.emit
    split <;> simp
  | patch =>
    unfold Session.replaceCode
    split <;> simp
  | declare d =>
    rcases s.declare_cases f d with ⟨cls, counters, -, -, -, -, h⟩ | ⟨counters, -, -, h⟩
    · rw [h, Session.size_blocks_enterMember]
    · rw [h]
      simp [Session.enterLocal]
  | commit => simp
  | _ => rfl

/-- Only emitting and patching touches code, and only that of the own block. -/
theorem Change.stream_cases (h : Change K f s t) (hw : s.isWatching = false) :
    (∀ block, block ≠ f.block → t.stream block = s.stream block) ∧
      (t.stream f.block = s.stream f.block ∨
        (∃ i, K i.opcode ∧ t.stream f.block = (s.stream f.block).push i) ∨
        ∃ op, K op ∧ op.isJump = true) := by
  cases h with
  | emit i span hi hc =>
    refine ⟨fun block hne => ?_, .inr (.inl ⟨i, hi, Session.stream_emit hc i span⟩)⟩
    simp [Session.emit, hw, Session.stream, Session.modifyBlock, Session.block?,
      Array.getElem?_modify, Ne.symm hne]
  | @patch pending target i j hp hj hi =>
    refine ⟨fun block hne => ?_, .inr (.inr ⟨i.opcode, hi, isJump_of_patch hj⟩)⟩
    simp [Session.replaceCode, hw, Session.stream, Session.modifyBlock, Session.block?,
      Array.getElem?_modify, Ne.symm hne]
  | declare d =>
    have hstream : ∀ block, (s.declare f d).stream block = s.stream block := by
      intro block
      rcases s.declare_cases f d with ⟨cls, counters, -, -, -, -, h⟩ | ⟨counters, -, -, h⟩
      · rw [h, Session.stream_enterMember]
        rfl
      · rw [h, Session.stream_enterLocal]
        rfl
    exact ⟨fun block _ => hstream block, .inl (hstream _)⟩
  | commit node =>
    have hstream := Session.stream_modifyBlock (g := fun b : Block =>
      { b with graph := b.graph.push { node with isSealed := true } }) (fun _ => rfl) s node.block
    exact ⟨fun block _ => hstream block, .inl (hstream _)⟩
  | _ => exact ⟨fun _ _ => rfl, .inl rfl⟩

/-! ## Opening and closing a frame -/

theorem Opens.block_cases {g : Frame} {close : Session → Session → Prop}
    (h : Opens f s g t close) :
    (g.block = f.block ∧ t.blocks = s.blocks) ∨
      (g.block = s.blocks.size ∧ t.blocks.size = s.blocks.size + 1 ∧ f.block < s.blocks.size) := by
  cases h with
  | block dialect hb =>
    obtain ⟨b, hb⟩ := Option.isSome_iff_exists.mp hb
    exact .inr ⟨rfl, by simp [Session.openBlock], (Array.getElem?_eq_some_iff.mp hb).1⟩
  | procedure p message hb =>
    obtain ⟨b, hb⟩ := Option.isSome_iff_exists.mp hb
    refine .inr ⟨rfl, ?_, (Array.getElem?_eq_some_iff.mp hb).1⟩
    change (Session.modifyProcedure _ _ _).blocks.size = _
    simp
  | cls => exact .inl ⟨rfl, rfl⟩

theorem Opens.isWatching_eq {g : Frame} {close : Session → Session → Prop}
    (h : Opens f s g t close) : t.isWatching = s.isWatching := by
  cases h with
  | block => simp [Session.openBlock, Session.modifyBlock]
  | procedure =>
    change (Session.modifyProcedure _ _ _).isWatching = _
    simp [Session.modifyBlock]
  | cls => rfl

theorem Opens.stream_eq {g : Frame} {close : Session → Session → Prop} (h : Opens f s g t close)
    {block : Nat} (hb : block < s.blocks.size) : t.stream block = s.stream block := by
  cases h with
  | block dialect =>
    refine Eq.trans (Session.stream_modifyBlock ?_ _ _ block) (Session.stream_addBlock hb _ _ _)
    exact fun _ => rfl
  | procedure p message =>
    change (Session.modifyProcedure _ _ _).stream block = _
    rw [Session.stream_modifyProcedure]
    refine Eq.trans (Session.stream_modifyBlock ?_ _ _ block) ?_
    · exact fun _ => rfl
    · rw [Session.stream_addBlock (by simpa using hb), Session.stream_register]
  | cls => rfl

/-- Closing a frame touches no block. -/
theorem Opens.close_eq {g : Frame} {close : Session → Session → Prop} (h : Opens f s g t close)
    {v w : Session} (hc : close v w) :
    w.isWatching = v.isWatching ∧ w.blocks = v.blocks ∧ ∀ block, w.stream block = v.stream block := by
  cases h with
  | block =>
    subst hc
    exact ⟨rfl, rfl, fun _ => rfl⟩
  | procedure =>
    rcases hc with rfl | ⟨entry, rfl⟩
    · exact ⟨rfl, rfl, fun _ => rfl⟩
    · refine ⟨?_, ?_, fun block => ?_⟩
      · rw [Session.isWatching_modifyProcedure]
        rfl
      · rw [Session.blocks_modifyProcedure]
        rfl
      · rw [Session.stream_modifyProcedure]
        rfl
  | cls =>
    subst hc
    exact ⟨rfl, rfl, fun _ => rfl⟩

/-! ## Whole runs -/

theorem Evolves.isWatching_eq (h : Evolves K f s t) : t.isWatching = s.isWatching := by
  induction h with
  | refl => rfl
  | step _ hc ih => rw [hc.isWatching_eq, ih]
  | inner _ ho _ hw ih ihg => rw [(ho.close_eq hw).1, ihg, ho.isWatching_eq, ih]

theorem Evolves.size_blocks_le (h : Evolves K f s t) : s.blocks.size ≤ t.blocks.size := by
  induction h with
  | refl => exact Nat.le_refl _
  | step _ hc ih => rwa [hc.size_blocks]
  | inner _ ho _ hw ih ihg =>
    rw [(ho.close_eq hw).2.1]
    rcases ho.block_cases with ⟨-, hb⟩ | ⟨-, hb, -⟩
    · rw [hb] at ihg
      omega
    · omega

/-- The code of a block that exists changes only in a frame of that block. -/
theorem Evolves.stream_of_ne (h : Evolves K f s t) (hw : s.isWatching = false) {block : Nat}
    (hb : block < s.blocks.size) (hne : block ≠ f.block) : t.stream block = s.stream block := by
  induction h with
  | refl => rfl
  | step h hc ih => rw [(hc.stream_cases (h.isWatching_eq.trans hw)).1 block hne, ih hw hb hne]
  | @inner K f g s t u v w close h ho hg hclose ih ihg =>
    have ht : block < t.blocks.size := Nat.lt_of_lt_of_le hb h.size_blocks_le
    have hu : block < u.blocks.size ∧ block ≠ g.block := by
      rcases ho.block_cases with ⟨hgb, hub⟩ | ⟨hgb, hub, -⟩
      · rw [hgb, hub]
        exact ⟨ht, hne⟩
      · omega
    have hwu : u.isWatching = false := by rw [ho.isWatching_eq, h.isWatching_eq, hw]
    rw [(ho.close_eq hclose).2.2, ihg hwu hu.1 hu.2, ho.stream_eq ht, ih hw hb hne]

/-- Code without jumps is put behind the code that is there. -/
theorem Evolves.stream_append (h : Evolves K f s t) (hw : s.isWatching = false)
    (hb : f.block < s.blocks.size) (hK : ∀ op, K op → op.isJump = false) :
    ∃ l : List Instruction, t.stream f.block = s.stream f.block ++ l.toArray ∧
      ∀ i ∈ l, K i.opcode := by
  induction h with
  | refl => exact ⟨[], by simp, by simp⟩
  | step h hc ih =>
    obtain ⟨l, hl, hop⟩ := ih hw hb hK
    rcases (hc.stream_cases (h.isWatching_eq.trans hw)).2 with hs | ⟨i, hi, hs⟩ | ⟨op, hop, hj⟩
    · exact ⟨l, by rw [hs, hl], hop⟩
    · refine ⟨l ++ [i], ?_, ?_⟩
      · rw [hs, hl, Array.push_eq_append, Array.append_assoc]
        simp
      · intro j hj
        rcases List.mem_append.mp hj with hj | hj
        · exact hop j hj
        · rwa [List.mem_singleton.mp hj]
    · rw [hK op hop] at hj
      cases hj
  | @inner K f g s t u v w close h ho hg hclose ih ihg =>
    obtain ⟨l, hl, hop⟩ := ih hw hb hK
    have ht : f.block < t.blocks.size := Nat.lt_of_lt_of_le hb h.size_blocks_le
    have hwu : u.isWatching = false := by rw [ho.isWatching_eq, h.isWatching_eq, hw]
    rw [(ho.close_eq hclose).2.2]
    rcases ho.block_cases with ⟨hgb, hub⟩ | ⟨hgb, hub, -⟩
    · have hu : g.block < u.blocks.size := by rwa [hgb, hub]
      obtain ⟨l', hl', hop'⟩ := ihg hwu hu fun op hop => hK op (hop hgb)
      refine ⟨l ++ l', ?_, ?_⟩
      · rw [← hgb, hl', hgb, ho.stream_eq ht, hl, Array.append_assoc]
        simp
      · intro j hj
        rcases List.mem_append.mp hj with hj | hj
        · exact hop j hj
        · exact hop' j hj hgb
    · refine ⟨l, ?_, hop⟩
      rw [hg.stream_of_ne hwu (by omega) (by omega), ho.stream_eq ht, hl]

end Lowering

/-! ## Emitting and patching jumps

What the steps that imperative statements are lowered by do to the code of the current block:
straight code and jumps are put behind it, and a patch fills the target into one jump.
-/

open Lowering

theorem Lowering.Evolving.run {α : Type} {K : OpCode → Prop} {m : Lower α} (h : Evolving K m)
    {f : Frame} {s t : State} {a : α} (hrun : m f s = .ok a t) :
    Evolves K f.site s.session t.session := by
  have hm := h f s
  rw [hrun] at hm
  exact hm

namespace Flow

/-- The code of the block that is being lowered. -/
def codeOf (f : Frame) (s : State) : Array Instruction := s.session.stream f.block

/-- No watch expression is lowered, and the current block exists. -/
structure Live (f : Frame) (s : State) : Prop where
  notWatching : s.session.isWatching = false
  inside : f.block < s.session.blocks.size

theorem Live.canEmit {f : Frame} {s : State} (h : Live f s) : s.session.CanEmit f.block := by
  refine .inr ?_
  simp [Session.block?, h.inside]

theorem Live.evolves {K : OpCode → Prop} {f : Frame} {s t : State} (h : Live f s)
    (he : Evolves K f.site s.session t.session) : Live f t :=
  ⟨he.isWatching_eq.trans h.notWatching, Nat.lt_of_lt_of_le h.inside he.size_blocks_le⟩

/-- The old code is the beginning of the new one. -/
structure Extends (old new : Array Instruction) : Prop where
  size_le : old.size ≤ new.size
  same : ∀ pc, pc < old.size → new[pc]? = old[pc]?

theorem Extends.refl (code : Array Instruction) : Extends code code := ⟨Nat.le_refl _, fun _ _ => rfl⟩

theorem Extends.trans {a b c : Array Instruction} (h : Extends a b) (h' : Extends b c) :
    Extends a c := by
  refine ⟨Nat.le_trans h.size_le h'.size_le, fun pc hpc => ?_⟩
  rw [h'.same pc (Nat.lt_of_lt_of_le hpc h.size_le), h.same pc hpc]

theorem extends_push (code : Array Instruction) (i : Instruction) : Extends code (code.push i) := by
  refine ⟨by simp, fun pc hpc => ?_⟩
  rw [Array.getElem?_push, if_neg (Nat.ne_of_lt hpc)]

/-! ### Straight code -/

/-- Straight code was put behind the code that is there. -/
structure Grown (f : Frame) (s t : State) : Prop where
  evolves : Evolves (fun _ => True) f.site s.session t.session
  live : Live f t
  keeps : Extends (codeOf f s) (codeOf f t)
  straight : IsStraight (codeOf f t) ⟨(codeOf f s).size, (codeOf f t).size⟩

theorem grown_of_evolving {α : Type} {m : Lower α} (hm : Evolving OpCode.IsStraight m)
    {f : Frame} {s t : State} {a : α} (hrun : m f s = .ok a t) (hl : Live f s) : Grown f s t := by
  have hev := hm.run hrun
  obtain ⟨l, hcode, hop⟩ := hev.stream_append hl.notWatching hl.inside fun _ h => h.1
  have hcode' : codeOf f t = codeOf f s ++ l.toArray := hcode
  refine ⟨hev.mono fun _ _ => trivial, hl.evolves hev, ?_, ?_⟩
  · rw [hcode']
    exact ⟨by simp, fun pc hpc => Array.getElem?_append_left hpc⟩
  · rw [hcode']
    refine ⟨by simp, fun pc hle hlt => ?_⟩
    have hle' : (codeOf f s).size ≤ pc := hle
    have hlt' : pc < (codeOf f s).size + l.length := by simpa using hlt
    have hin : pc - (codeOf f s).size < l.length := by omega
    rw [Array.getElem?_append_right hle']
    exact ⟨l[pc - (codeOf f s).size], by simp [hin], hop _ (List.getElem_mem hin)⟩

/-! ### Emitting one instruction -/

/-- One instruction was put behind the code that is there. -/
structure Pushed (f : Frame) (s t : State) (i : Instruction) : Prop where
  evolves : Evolves (fun _ => True) f.site s.session t.session
  live : Live f t
  keeps : Extends (codeOf f s) (codeOf f t)
  size : (codeOf f t).size = (codeOf f s).size + 1
  last : ∃ debug, (codeOf f t)[(codeOf f s).size]? = some { i with debug }

theorem emitWith_ok {i : Instruction} {span : Span} {debug : Option DebugRecord} {f : Frame}
    {s t : State} {p : Nat} (hrun : emitWith i span debug f s = .ok p t) (hl : Live f s) :
    p = (codeOf f s).size ∧ Pushed f s t i := by
  have hev := (Evolving.emitWith (K := fun _ => True) trivial span debug).run hrun
  rw [run_emitWith i span debug f s hl.canEmit] at hrun
  cases hrun
  have hcan := (Session.canEmit_noteEmission f (codeOf f s).size { i with debug }).mpr hl.canEmit
  have hcode := Session.stream_emit hcan { i with debug } span
  rw [Session.stream_noteEmission] at hcode
  refine ⟨rfl, hev, hl.evolves hev, ?_, ?_, debug, ?_⟩
  · exact (congrArg (Extends (codeOf f s)) hcode).mpr (extends_push _ _)
  · exact (congrArg Array.size hcode).trans (Array.size_push _)
  · exact (congrArg (·[(codeOf f s).size]?) hcode).trans Array.getElem?_push_size

theorem emitStepping_ok {i : Instruction} {span : Span} {steps : List (Option Nat)} {f : Frame}
    {s t : State} {p : Nat} (hrun : emitStepping i span steps f s = .ok p t) (hl : Live f s) :
    p = (codeOf f s).size ∧ Pushed f s t i := by
  simp only [emitStepping, run_bind, run_pc f s hl.canEmit, run_getSession] at hrun
  exact emitWith_ok hrun hl

theorem emitCjmp_ok {condition : Operand} {holds : Nat} {span : Span} {f : Frame} {s t : State}
    {p : Nat} (hrun : emitCjmp condition holds span f s = .ok p t) (hl : Live f s) :
    p = (codeOf f s).size ∧
      Pushed f s t (.ternary .cjmp condition (.label (some holds)) (.label none)) := by
  simp only [emitCjmp, run_bind, run_getSession, run_ite] at hrun
  split at hrun
  · exact emitWith_ok hrun hl
  · exact emitStepping_ok hrun hl

theorem pc_ok {f : Frame} {s t : State} {p : Nat} (hrun : pc f s = .ok p t) (hl : Live f s) :
    p = (codeOf f s).size ∧ t = s := by
  rw [run_pc f s hl.canEmit] at hrun
  cases hrun
  exact ⟨rfl, rfl⟩

/-! ### Patching -/

/-- The target was filled into the jump at one place. -/
structure Patched (f : Frame) (s t : State) (p target : Nat) : Prop where
  evolves : Evolves (fun _ => True) f.site s.session t.session
  live : Live f t
  size : (codeOf f t).size = (codeOf f s).size
  other : ∀ pc, pc ≠ p → (codeOf f t)[pc]? = (codeOf f s)[pc]?
  self : ∀ i, (codeOf f s)[p]? = some i → ∃ j, i.patch target = .ok j ∧ (codeOf f t)[p]? = some j

theorem patch_ok {p target : Nat} {f : Frame} {s t : State}
    (hrun : patch p target f s = .ok () t) (hl : Live f s) : Patched f s t p target := by
  have hev := (Evolving.patch (K := fun _ => True) (fun _ _ => trivial) p target).run hrun
  rcases patch_cases p target f s with ⟨i, j, hi, hj, h⟩ | ⟨d, h⟩
  · rw [h] at hrun
    cases hrun
    have hcode := Session.stream_replaceCode hl.notWatching hl.inside p j
    refine ⟨hev, hl.evolves hev, ?_, fun pc hne => ?_, fun i' hi' => ⟨j, ?_, ?_⟩⟩
    · exact (congrArg Array.size hcode).trans Array.size_setIfInBounds
    · exact (congrArg (·[pc]?) hcode).trans (Array.getElem?_setIfInBounds_ne (Ne.symm hne))
    · rw [← Option.some.inj (hi.symm.trans hi')]
      exact hj
    · have hlt := (Array.getElem?_eq_some_iff.mp hi).1
      exact (congrArg (·[p]?) hcode).trans (Array.getElem?_setIfInBounds_self_of_lt hlt)
  · rw [h] at hrun
    cases hrun

theorem Patched.extends {f : Frame} {s t : State} {p target : Nat} (h : Patched f s t p target)
    {old : Array Instruction} (hkeep : Extends old (codeOf f s)) (hp : old.size ≤ p) :
    Extends old (codeOf f t) := by
  refine ⟨by rw [h.size]; exact hkeep.size_le, fun pc hpc => ?_⟩
  rw [h.other pc (by omega), hkeep.same pc hpc]

/-- The place jumps to a target, whatever happens. -/
def JumpsTo (code : Array Instruction) (pc target : Nat) : Prop :=
  ∃ i, code[pc]? = some i ∧ i.opcode = .jmp ∧ i.op1 = some (.label (some target))

theorem JumpsTo.steps {code : Array Instruction} {pc target : Nat} (h : JumpsTo code pc target)
    (os : List Bool) : Steps code ⟨pc, os⟩ [] ⟨target, os⟩ := by
  obtain ⟨i, hi, hop, ht⟩ := h
  exact .single (.jmp hi hop ht)

theorem JumpsTo.congr {code old : Array Instruction} {pc target : Nat} (h : JumpsTo old pc target)
    (hsame : code[pc]? = old[pc]?) : JumpsTo code pc target := by
  obtain ⟨i, hi, hop, ht⟩ := h
  exact ⟨i, hsame.trans hi, hop, ht⟩

/-- A patched jump has its target in its slot, and is the same jump otherwise. -/
theorem patch_eq {i j : Instruction} {target : Nat} (h : i.patch target = .ok j) :
    j.opcode = i.opcode ∧
      (i.opcode = .jmp → j.op1 = some (.label (some target))) ∧
      (i.opcode = .jz → j.op1 = i.op1 ∧ j.op2 = some (.label (some target))) ∧
      (i.opcode = .cjmp → j.op1 = i.op1 ∧ j.op2 = i.op2 ∧ j.op3 = some (.label (some target))) := by
  have hj : j = { i.retarget (.label (some target)) with
      debug := i.debug.map (DebugRecord.resolve target) } := by
    unfold Instruction.patch at h
    split at h
    · cases h
    · split at h <;> cases h
      rfl
  subst hj
  refine ⟨?_, ?_, ?_, ?_⟩
  · unfold Instruction.retarget
    split <;> rfl
  · intro hop
    simp [Instruction.retarget, hop, OpCode.targetSlot?]
  · intro hop
    simp [Instruction.retarget, hop, OpCode.targetSlot?]
  · intro hop
    simp [Instruction.retarget, hop, OpCode.targetSlot?]

/-- The target was filled into several jumps. -/
structure PatchedAll (f : Frame) (s t : State) (pending : List Nat) (target : Nat) : Prop where
  evolves : Evolves (fun _ => True) f.site s.session t.session
  live : Live f t
  size : (codeOf f t).size = (codeOf f s).size
  other : ∀ pc, pc ∉ pending → (codeOf f t)[pc]? = (codeOf f s)[pc]?
  self : ∀ pc ∈ pending, JumpsTo (codeOf f t) pc target

theorem patchAll_ok {pending : List Nat} {target : Nat} {f : Frame} {s t : State}
    (hrun : patchAll pending target f s = .ok () t) (hl : Live f s) (hnodup : pending.Nodup)
    (hjump : ∀ pc ∈ pending, ∃ i, (codeOf f s)[pc]? = some i ∧ i.opcode = .jmp) :
    PatchedAll f s t pending target := by
  induction pending generalizing s with
  | nil =>
    cases hrun
    exact ⟨.refl _ _ _, hl, rfl, fun _ _ => rfl, fun _ h => by cases h⟩
  | cons p rest ih =>
    obtain ⟨⟨⟩, u, hp, hrest⟩ := bind_eq_ok.mp hrun
    obtain ⟨hnotin, hnodup⟩ := List.nodup_cons.mp hnodup
    have hfirst := patch_ok hp hl
    have hothers := ih hrest hfirst.live hnodup fun pc hpc => by
      rw [hfirst.other pc fun heq => hnotin (heq ▸ hpc)]
      exact hjump pc (List.mem_cons_of_mem p hpc)
    refine ⟨hfirst.evolves.trans hothers.evolves, hothers.live,
      hothers.size.trans hfirst.size, fun pc hpc => ?_, fun pc hpc => ?_⟩
    · rw [hothers.other pc fun h => hpc (List.mem_cons_of_mem p h),
        hfirst.other pc fun h => hpc (h ▸ List.mem_cons_self ..)]
    · rcases List.mem_cons.mp hpc with rfl | hpc
      · obtain ⟨i, hi, hop⟩ := hjump pc (List.mem_cons_self ..)
        obtain ⟨j, hj, hself⟩ := hfirst.self i hi
        refine ⟨j, ?_, (patch_eq hj).1.trans hop, (patch_eq hj).2.1 hop⟩
        rw [hothers.other pc hnotin, hself]
      · exact hothers.self pc hpc

end Flow

end Diglot
