import Diglot.Proofs.Closed.Session
import Diglot.Proofs.Records.Places
import Diglot.Proofs.Records.Edits

/-! # Debug records and the debug map agree with the code

* `Session.Located`: every record has the span that the debug map has at its place, and tells the steps of
  its instruction; and the map has no place outside of the code. Every edit keeps this
  (`Located.edit`), and so does every call on a session.
* `Finished.located`: so it holds in every session in which all units compiled.
-/

set_option autoImplicit false

namespace Diglot

open Lowering

namespace Session

/-! ## What edits keep -/

/-- The records of the code and the debug map tell the same. -/
structure Located (s : Session) : Prop where
  agrees : ∀ id pc i d, (s.blockCode id)[pc]? = some i → i.debug = some d →
    s.debugMap.get? id pc = some d.span ∧ i.StepsTo pc d.nextSteps
  inside : ∀ id pc span, s.debugMap.get? id pc = some span → pc < (s.blockCode id).size
  ordered : s.debugMap.IsOrdered

section
variable {s : Session} (hw : s.isWatching = false)
include hw

theorem debugMap_emit (block : Nat) (i : Instruction) (span : Span) :
    (s.emit block i span).debugMap = s.debugMap.record block (s.blockCode block).size span := by
  simp only [emit, hw, Bool.false_eq_true, if_false, modifyBlock, blockCode]
  cases s.block? block <;> rfl

theorem blockCode_emit {block : Nat} (hb : (s.block? block).isSome) (i : Instruction) (span : Span)
    (id : Nat) :
    (s.emit block i span).blockCode id =
      if block = id then (s.blockCode id).push i else s.blockCode id := by
  obtain ⟨b, hb⟩ := Option.isSome_iff_exists.mp hb
  have hb' : s.blocks[block]? = some b := hb
  simp only [emit, hw, Bool.false_eq_true, if_false, blockCode, block?_modifyBlock]
  split
  · next heq => simp [← heq, block?, hb']
  · rfl

theorem blockCode_replaceCode (block pc : Nat) (i : Instruction) (id : Nat) :
    (s.replaceCode block pc i).blockCode id =
      if block = id then (s.blockCode id).setIfInBounds pc i else s.blockCode id := by
  simp only [replaceCode, hw, Bool.false_eq_true, if_false, blockCode, block?_modifyBlock]
  split
  · cases s.block? id <;> simp
  · rfl

end

theorem debugMap_replaceCode (s : Session) (block pc : Nat) (i : Instruction) :
    (s.replaceCode block pc i).debugMap = s.debugMap := by
  unfold replaceCode
  split <;> rfl

end Session

/-- A patch completes the record that the jump had. -/
theorem Instruction.debug_patch {i j : Instruction} {target : Nat} (h : i.patch target = .ok j) :
    j.debug = i.debug.map (DebugRecord.resolve target) := by
  unfold Instruction.patch at h
  split at h
  · cases h
  split at h
  · cases h
    rfl
  · cases h
  · cases h

namespace Session

variable {s t : Session}

theorem located_new (options : Options) : (new options).Located := by
  refine ⟨fun id pc i d hi => ?_, fun id pc span hspan => ?_, DebugMap.isOrdered_empty⟩
  · simp [blockCode, block?, new] at hi
  · cases hspan

namespace Located

theorem beside (h : s.Located) (hc : t.blockCode = s.blockCode) (hm : t.debugMap = s.debugMap) :
    t.Located := by
  refine ⟨?_, ?_, ?_⟩
  · rw [hc, hm]
    exact h.agrees
  · rw [hc, hm]
    exact h.inside
  · rw [hm]
    exact h.ordered

/-- An instruction at the end of a block brings its own record, and no place before it is recorded
anew. -/
theorem emit (h : s.Located) (hw : s.isWatching = false) {block : Nat} {i : Instruction} {span : Span}
    (hb : (s.block? block).isSome)
    (hi : ∀ d, i.debug = some d → IsRecordAt i (s.blockCode block).size span d) :
    (s.emit block i span).Located := by
  refine ⟨fun id pc j d hj hd => ?_, fun id pc other hother => ?_, ?_⟩
  · rw [blockCode_emit hw hb] at hj
    rw [debugMap_emit hw, DebugMap.get?_record]
    by_cases hid : block = id
    case neg =>
      rw [if_neg hid] at hj
      rw [if_neg fun hsame => hid hsame.2.1]
      exact h.agrees id pc j d hj hd
    subst hid
    rw [if_pos rfl, Array.getElem?_push] at hj
    split at hj
    · next hlast =>
      obtain rfl := Option.some.inj hj
      obtain ⟨hspan, hvalid, hsteps⟩ := hi d hd
      rw [if_pos ⟨hvalid, rfl, hlast.symm⟩, hspan, hlast]
      exact ⟨rfl, hsteps⟩
    · next hearlier =>
      rw [if_neg fun hsame => hearlier hsame.2.2.symm]
      exact h.agrees block pc j d hj hd
  · rw [blockCode_emit hw hb]
    rw [debugMap_emit hw, DebugMap.get?_record] at hother
    split at hother
    · next hsame =>
      obtain ⟨-, rfl, rfl⟩ := hsame
      simp
    · have hlt := h.inside id pc other hother
      split
      · rw [Array.size_push]
        exact Nat.lt_succ_of_lt hlt
      · exact hlt
  · rw [debugMap_emit hw]
    exact h.ordered.record _ _ _

/-- A patched jump keeps its span, and its steps are those of the jump with its target. -/
theorem patch (h : s.Located) (hw : s.isWatching = false) {block pending target : Nat}
    {i j : Instruction} (hi : (s.blockCode block)[pending]? = some i) (hp : i.patch target = .ok j) :
    (s.replaceCode block pending j).Located := by
  refine ⟨fun id pc k d hk hd => ?_, fun id pc span hspan => ?_, ?_⟩
  · rw [blockCode_replaceCode hw] at hk
    rw [debugMap_replaceCode]
    by_cases hid : block = id
    case neg =>
      rw [if_neg hid] at hk
      exact h.agrees id pc k d hk hd
    subst hid
    rw [if_pos rfl, Array.getElem?_setIfInBounds] at hk
    by_cases hplace : pending = pc
    case neg =>
      rw [if_neg hplace] at hk
      exact h.agrees block pc k d hk hd
    subst hplace
    rw [if_pos rfl, if_pos (Array.getElem?_eq_some_iff.mp hi).1] at hk
    obtain rfl := Option.some.inj hk
    rw [Instruction.debug_patch hp] at hd
    obtain ⟨old, hold, rfl⟩ := Option.map_eq_some_iff.mp hd
    obtain ⟨hspan, hsteps⟩ := h.agrees block pending i old hi hold
    exact ⟨hspan, hsteps.patch hp⟩
  · rw [debugMap_replaceCode] at hspan
    have hlt := h.inside id pc span hspan
    rw [blockCode_replaceCode hw]
    split
    · rwa [Array.size_setIfInBounds]
    · exact hlt
  · rw [debugMap_replaceCode]
    exact h.ordered

theorem edit (h : s.Located) (he : s.Edit t) : t.Located := by
  cases he with
  | beside hc hm => exact h.beside hc hm
  | emit hw hb hi => exact h.emit hw hb hi
  | patch hw hi hp => exact h.patch hw hi hp

theorem edits (h : s.Located) (he : s.Edits t) : t.Located := by
  induction he with
  | refl => exact h
  | tail _ hstep ih => exact ih.edit hstep

end Located

/-! ## Calls on a session -/

theorem edits_importSymbol (s : Session) (name : String) (type : Ty) (library : String) :
    s.Edits (s.importSymbol name type library).2 := by
  have hfirst : s.Edit (if s.blocks.isEmpty then s.addBlock .global .associative none else s) := by
    split
    · exact edit_addBlock s _ _ _
    · exact .ofBlocks rfl rfl
  unfold Session.importSymbol
  generalize (if s.blocks.isEmpty then s.addBlock .global .associative none else s) = t at hfirst ⊢
  dsimp only
  refine .tail ?_ (edit_modifyBlock ?_ _ 0)
  · exact .tail (.single hfirst) (.ofBlocks rfl rfl)
  · exact fun _ => rfl

theorem edit_openUnit (s : Session) (dialect : Dialect) : s.Edit (s.openUnit dialect).2 := by
  have hdialect : s.Edit (s.modifyBlock 0 fun b => { b with dialect }) := by
    refine edit_modifyBlock ?_ s 0
    exact fun _ => rfl
  unfold openUnit
  split
  · split
    · exact (edit_addBlock s .global dialect none :)
    · exact (hdialect :)
  · exact (edit_addBlock s .global dialect (some 0) :)

theorem edits_compile (s : Session) (unit : List Node) (dialect : Dialect) :
    s.Edits (s.compile unit dialect).2 := by
  have hstart : s.Edits (s.unitStart dialect).2 := by
    have hquiet : s.Edit { s with isWatching := false } := .ofBlocks rfl rfl
    exact .tail (.tail (.single hquiet) (edit_openUnit _ dialect)) (.ofBlocks rfl rfl)
  have hrun := Editing.lowerCode unit
    (unitFrame (s.unitStart dialect).1 .global dialect unit) { session := (s.unitStart dialect).2 }
  rw [compile_eq]
  cases hr : lowerCode unit (unitFrame (s.unitStart dialect).1 .global dialect unit)
      { session := (s.unitStart dialect).2 } with
  | ok a t =>
    rw [hr] at hrun
    exact hstart.trans hrun
  | error e t =>
    rw [hr] at hrun
    exact hstart.trans hrun

theorem edits_watchExpression (s : Session) (id : Nat) (node : Node) :
    s.Edits (s.watchExpression id node).2 := by
  cases hb : s.block? id with
  | none =>
    unfold watchExpression
    rw [hb]
  | some b =>
    have hrun := Editing.lowerWatch node (s.watchSite id b)
      { session := { s with isWatching := true } }
    have hstart : s.Edit { s with isWatching := true } := .ofBlocks rfl rfl
    rw [watchExpression_eq hb]
    cases hr : lowerWatch node (s.watchSite id b) { session := { s with isWatching := true } } with
    | ok a t =>
      rw [hr] at hrun
      exact .tail ((Relation.ReflTransGen.single hstart).trans hrun) (.ofBlocks rfl rfl)
    | error e t =>
      rw [hr] at hrun
      exact .tail ((Relation.ReflTransGen.single hstart).trans hrun) (.ofBlocks rfl rfl)

variable {n : Nat}

/-- Whatever calls are made, records and debug map agree with the code. -/
theorem Finished.located (h : s.Finished n) : s.Located := by
  obtain ⟨options, requests, hcalls, -⟩ := h
  replace hcalls : (Session.new options).Leads Accepted s := ⟨requests, hcalls⟩
  induction hcalls using Leads.induct with
  | refl => exact located_new options
  | setFile t file ih => exact ih.beside rfl rfl
  | setParsingModule t on ih => exact ih.beside rfl rfl
  | importSymbol t name type library _ ih => exact ih.edits (edits_importSymbol _ name type library)
  | addClass t c classes _ _ ih => exact ih.beside rfl rfl
  | addMethod t cls p _ ih => exact ih.beside rfl rfl
  | addProcedure t p _ ih => exact ih.beside rfl rfl
  | compile t unit dialect _ _ ih => exact ih.edits (edits_compile _ unit dialect)
  | watchExpression t id b node _ _ _ ih => exact ih.edits (edits_watchExpression _ id node)

end Session

/-! ## What a stepping debugger is told

* `Instruction.Continues`: control can go on at a place after an instruction.
* `Instruction.StepsTo.complete_iff`: the steps in a debug record are all places where control can go on,
  except that a `jz` does not tell the one behind it.
* `Finished.records_agree`: debug records, debug map and code tell the same in a session in which every unit
  compiled.
* `Finished.lists_successors`: what the records list.
-/

/-! ### Where control can go on -/

/-- Control can go on behind an instruction of the opcode: it neither leaves nor always jumps. -/
def OpCode.FallsThrough (op : OpCode) : Prop :=
  op ≠ .jmp ∧ op ≠ .cjmp ∧ op ≠ .ret ∧ op ≠ .retb ∧ op ≠ .retcn

instance (op : OpCode) : Decidable op.FallsThrough := inferInstanceAs (Decidable (_ ∧ _))

/-- Control can go on at `q` after an instruction at a place. -/
inductive Instruction.Continues (i : Instruction) (pc : Nat) : Nat → Prop where
  | target {q : Nat} : i.jumpTarget? = some (.label (some q)) → Continues i pc q
  | holds {q : Nat} : i.opcode = .cjmp → i.op2 = some (.label (some q)) → Continues i pc q
  | behind : i.opcode.FallsThrough → Continues i pc (pc + 1)

theorem OpCode.IsPlain.fallsThrough {op : OpCode} (h : op.IsPlain) : op.FallsThrough := by
  obtain ⟨⟨hjump, hret, hretb⟩, hretcn⟩ := h
  refine ⟨?_, ?_, hret, hretb, hretcn⟩
  · rintro rfl
    cases hjump
  · rintro rfl
    cases hjump

namespace Instruction.StepsTo

variable {i : Instruction} {pc q : Nat} {steps : List (Option Nat)}

/-- Control can go on at every step that is told. -/
theorem continues (h : i.StepsTo pc steps) (hq : some q ∈ steps) : i.Continues pc q := by
  cases h with
  | next hop =>
    obtain rfl : q = pc + 1 := by simpa using hq
    exact .behind hop.fallsThrough
  | jmp target hop h1 =>
    obtain rfl := List.mem_singleton.mp hq
    exact .target (by simp [jumpTarget?, OpCode.targetSlot?, hop, h1])
  | cjmp holds fails hop h2 h3 =>
    rcases List.mem_cons.mp hq with hq | hq
    · obtain rfl := Option.some.inj hq
      exact .holds hop h2
    · obtain rfl := List.mem_singleton.mp hq
      exact .target (by simp [jumpTarget?, OpCode.targetSlot?, hop, h3])
  | jz target hop h2 =>
    obtain rfl := List.mem_singleton.mp hq
    exact .target (by simp [jumpTarget?, OpCode.targetSlot?, hop, h2])

/-- Every place where control can go on is told, but for the one behind a `jz`. -/
theorem listed (h : i.StepsTo pc steps) (hq : i.Continues pc q) :
    some q ∈ steps ∨ i.opcode = .jz ∧ q = pc + 1 := by
  cases h with
  | next hop =>
    cases hq with
    | target htarget =>
      have hslot : i.opcode.targetSlot? = none := by
        simpa [OpCode.isJump, Option.not_isSome_iff_eq_none] using hop.1.1
      rw [jumpTarget?, hslot] at htarget
      cases htarget
    | holds hcjmp => exact absurd (hcjmp ▸ hop) (by decide)
    | behind => exact .inl (List.mem_singleton.mpr rfl)
  | jmp target hop h1 =>
    cases hq with
    | target htarget =>
      simp only [jumpTarget?, OpCode.targetSlot?, hop, h1, Option.some.injEq, Operand.label.injEq]
        at htarget
      exact .inl (List.mem_singleton.mpr htarget.symm)
    | holds hcjmp => exact absurd (hop.symm.trans hcjmp) (by decide)
    | behind hfalls => exact absurd hop hfalls.1
  | cjmp holds fails hop h2 h3 =>
    cases hq with
    | target htarget =>
      simp only [jumpTarget?, OpCode.targetSlot?, hop, h3, Option.some.injEq, Operand.label.injEq]
        at htarget
      exact .inl (by simp [htarget])
    | holds _ hholds =>
      rw [h2, Option.some.injEq, Operand.label.injEq] at hholds
      exact .inl (by simp [hholds])
    | behind hfalls => exact absurd hop hfalls.2.1
  | jz target hop h2 =>
    cases hq with
    | target htarget =>
      simp only [jumpTarget?, OpCode.targetSlot?, hop, h2, Option.some.injEq, Operand.label.injEq]
        at htarget
      exact .inl (List.mem_singleton.mpr htarget.symm)
    | holds hcjmp => exact absurd (hop.symm.trans hcjmp) (by decide)
    | behind => exact .inr ⟨hop, rfl⟩

/-- The steps of a `jz` are complete only if it jumps to the place behind it. -/
theorem complete_iff (h : i.StepsTo pc steps) :
    (∀ q, i.Continues pc q → some q ∈ steps) ↔
      (i.opcode = .jz → i.jumpTarget? = some (.label (some (pc + 1)))) := by
  constructor
  · intro hall hop
    have hbehind := hall (pc + 1) (.behind (by rw [hop]; decide))
    cases h with
    | jz target _ h2 =>
      rw [List.mem_singleton.mp hbehind]
      simp [jumpTarget?, OpCode.targetSlot?, hop, h2]
    | next hplain => exact absurd (hop ▸ hplain) (by decide)
    | jmp _ hjmp => exact absurd (hop.symm.trans hjmp) (by decide)
    | cjmp _ _ hcjmp => exact absurd (hop.symm.trans hcjmp) (by decide)
  · intro htarget q hq
    rcases h.listed hq with hmem | ⟨hop, rfl⟩
    · exact hmem
    · -- The place behind is also the target.
      cases h with
      | jz target _ h2 =>
        have hlabel := htarget hop
        simp only [jumpTarget?, OpCode.targetSlot?, hop, h2, Option.some.injEq, Operand.label.injEq]
          at hlabel
        exact List.mem_singleton.mpr hlabel.symm
      | next hplain => exact absurd (hop ▸ hplain) (by decide)
      | jmp _ hjmp => exact absurd (hop.symm.trans hjmp) (by decide)
      | cjmp _ _ hcjmp => exact absurd (hop.symm.trans hcjmp) (by decide)

/-- In a finished block, every step is known and inside of the block. -/
theorem inside {b : Block} (h : i.StepsTo pc steps) (hb : b.IsFinished) (hi : b.code[pc]? = some i) :
    ∀ step ∈ steps, ∃ q, step = some q ∧ q < b.code.size := by
  have hlabel {l : Option Nat} (hl : .label l ∈ i.operands) : ∃ q, l = some q ∧ q < b.code.size :=
    hb.targets i (Array.mem_of_getElem? hi) l hl
  intro step hstep
  cases h with
  | next hop =>
    obtain rfl := List.mem_singleton.mp hstep
    refine ⟨pc + 1, rfl, ?_⟩
    have hlt := (Array.getElem?_eq_some_iff.mp hi).1
    refine Nat.lt_of_le_of_ne hlt fun heq => ?_
    -- The last instruction leaves, and an instruction with this step does not.
    obtain ⟨j, hj, hleaves⟩ := hb.last
    rw [Array.back?_eq_getElem?, ← heq, Nat.add_sub_cancel, hi] at hj
    obtain rfl := Option.some.inj hj
    split at hleaves
    · exact hop.1.2.1 hleaves
    · exact hop.1.2.2 hleaves
  | jmp target _ h1 =>
    obtain rfl := List.mem_singleton.mp hstep
    exact hlabel (by simp [operands, h1])
  | cjmp holds fails _ h2 h3 =>
    rcases List.mem_cons.mp hstep with rfl | hstep
    · exact hlabel (by simp [operands, h2])
    · obtain rfl := List.mem_singleton.mp hstep
      exact hlabel (by simp [operands, h3])
  | jz target _ h2 =>
    obtain rfl := List.mem_singleton.mp hstep
    exact hlabel (by simp [operands, h2])

end Instruction.StepsTo

namespace Session

variable {n : Nat} {s : Session} {id pc : Nat} {b : Block} {i : Instruction} {d : DebugRecord}

theorem blockCode_of_block? (hb : s.block? id = some b) : s.blockCode id = b.code := by
  simp [blockCode, hb]

/-- In a session with an instruction, some unit was compiled. -/
theorem Finished.pos_of_code (h : s.Finished n) (hb : s.block? id = some b)
    (hi : b.code[pc]? = some i) : 0 < n := by
  refine Nat.pos_of_ne_zero fun hzero => ?_
  have htext : s.text id = some (b.kind, b.code) := by simp [text, hb]
  obtain ⟨-, -, hcode⟩ := h.proper.unfilled hzero id _ _ htext
  simp [hcode] at hi

theorem Finished.isFinished_of_code (h : s.Finished n) (hb : s.block? id = some b)
    (hi : b.code[pc]? = some i) : b.IsFinished := by
  have hpos := h.pos_of_code hb hi
  exact h.isFinished.1 hpos b (Array.mem_of_getElem? hb)

theorem Finished.record_agrees (h : s.Finished n) (hb : s.block? id = some b)
    (hi : b.code[pc]? = some i) (hd : i.debug = some d) :
    s.debugMap.get? id pc = some d.span ∧ i.StepsTo pc d.nextSteps :=
  h.located.agrees id pc i d (blockCode_of_block? hb ▸ hi) hd

/-- A recorded place is one of the code. -/
theorem Finished.recorded_inside (h : s.Finished n) {span : Span}
    (hspan : s.debugMap.get? id pc = some span) :
    ∃ b i, s.block? id = some b ∧ b.code[pc]? = some i := by
  have hlt := h.located.inside id pc span hspan
  cases hb : s.block? id with
  | none => simp [blockCode, hb] at hlt
  | some b =>
    rw [blockCode_of_block? hb] at hlt
    exact ⟨b, b.code[pc], rfl, Array.getElem?_eq_getElem hlt⟩

/-! ### Finished sessions -/

/-- The options of a debugger that steps. -/
def steppingOptions : Options := { emitBreakpoints := true, ideDebugMode := true }

/-- A line of the source. -/
def sourceLine (n : Nat) : Span := ⟨n, 1, n, 9⟩

/-- The assignment of a number to `x` in a line. -/
def assignment (value : String) (line : Nat) : Node :=
  .assign (.identifier (.plain "x" (sourceLine line))) (.literal .int value (sourceLine line)) (sourceLine line)

/-- The condition `true` in a line. -/
def condition (line : Nat) : Node := .literal .bool "true" (sourceLine line)

/-- A branch with an alternative, a loop that is left, and a language block. -/
def steppedUnit : List Node :=
  [.branch (condition 1) [assignment "1" 2] [assignment "2" 3] (sourceLine 1),
   .loop (condition 4) [.breakLoop (sourceLine 5)] (sourceLine 4),
   .block .associative [assignment "3" 6] (sourceLine 6)]

/-- The session of the unit, after a watch expression in its language block. -/
def stepped : Session :=
  (((new steppingOptions).compile steppedUnit .imperative).2.watchExpression 1 (condition 7)).2

/-- When every unit compiled, a debug record has the span that the map has at its place, and its steps are
places of the block; the map has no other places than those of the code, so that an instruction without an
entry has no record; and a node is found at the first place of its range that has an entry. -/
theorem Finished.records_agree (h : s.Finished n) :
    (∀ id b pc i d, s.block? id = some b → b.code[pc]? = some i → i.debug = some d →
      s.debugMap.get? id pc = some d.span ∧
        ∀ step ∈ d.nextSteps, ∃ q, step = some q ∧ q < b.code.size) ∧
    (∀ e ∈ s.debugMap.entries, ∃ b, s.block? e.block = some b ∧ e.pc < b.code.size) ∧
    (∀ id b pc i, s.block? id = some b → b.code[pc]? = some i → s.debugMap.get? id pc = none →
      i.debug = none) ∧
    ∀ g : GraphNode,
      s.debugMap.byNode? g = none ∧
          (∀ pc, g.startPc ≤ pc → pc ≤ g.endPc → s.debugMap.get? g.block pc = none) ∨
        ∃ b pc i span, s.block? g.block = some b ∧ b.code[pc]? = some i ∧
          s.debugMap.IsFirst g.block g.startPc g.endPc pc span ∧ s.debugMap.byNode? g = some span := by
  have hordered := h.located.ordered
  refine ⟨fun id b pc i d hb hi hd => ?_, fun e he => ?_, fun id b pc i hb hi hnone => ?_, fun g => ?_⟩
  · obtain ⟨hspan, hsteps⟩ := h.record_agrees hb hi hd
    exact ⟨hspan, hsteps.inside (h.isFinished_of_code hb hi) hi⟩
  · have hget : s.debugMap.get? e.block e.pc = some e.span :=
      (DebugMap.get?_eq_some_iff hordered).mpr he
    obtain ⟨b, i, hb, hi⟩ := h.recorded_inside hget
    exact ⟨b, hb, (Array.getElem?_eq_some_iff.mp hi).1⟩
  · cases hd : i.debug with
    | none => rfl
    | some d =>
      have hspan := (h.record_agrees hb hi hd).1
      rw [hnone] at hspan
      cases hspan
  · cases hnode : s.debugMap.byNode? g with
    | none => exact .inl ⟨rfl, (DebugMap.byNode?_eq_none_iff hordered).mp hnode⟩
    | some span =>
      obtain ⟨pc, hfirst⟩ := (DebugMap.byNode?_eq_some_iff hordered).mp hnode
      obtain ⟨b, i, hb, hi⟩ := h.recorded_inside hfirst.get?
      exact .inr ⟨b, pc, i, span, hb, hi, hfirst, rfl⟩

/-- The session of a watched unit, with its fourteen recorded places. -/
theorem stepped_records_agree :
    stepped.Finished 1 ∧ stepped.debugMap.entries.length = 14 ∧
      ∀ id b pc i d, stepped.block? id = some b → b.code[pc]? = some i → i.debug = some d →
        stepped.debugMap.get? id pc = some d.span ∧
          ∀ step ∈ d.nextSteps, ∃ q, step = some q ∧ q < b.code.size := by
  have hs : stepped.Finished 1 :=
    .watchExpression 1 _ ((Finished.new steppingOptions).ofCompiled (by decide +kernel))
  exact ⟨hs, by decide +kernel, hs.records_agree.1⟩

/-- Control can go on at every place that a record lists, and the list is complete unless the instruction
is a `jz` that jumps elsewhere than behind itself. -/
theorem Finished.lists_successors (h : s.Finished n) (hb : s.block? id = some b)
    (hi : b.code[pc]? = some i) (hd : i.debug = some d) :
    (∀ q, some q ∈ d.nextSteps → i.Continues pc q) ∧
      ((∀ q, i.Continues pc q → some q ∈ d.nextSteps) ↔
        (i.opcode = .jz → i.jumpTarget? = some (.label (some (pc + 1))))) := by
  obtain ⟨-, hsteps⟩ := h.record_agrees hb hi hd
  exact ⟨fun q hq => hsteps.continues hq, hsteps.complete_iff⟩

/-- The record of the `cjmp` of the branch lists both of its labels, and control can go on nowhere
else. -/
theorem alternative_lists_successors :
    stepped.Finished 1 ∧ ∃ b i d, stepped.block? 0 = some b ∧ b.code[2]? = some i ∧ i.debug = some d ∧
      i.opcode = .cjmp ∧ d.nextSteps = [some 3, some 9] ∧
      ∀ q, some q ∈ d.nextSteps ↔ i.Continues 2 q := by
  have hs : stepped.Finished 1 :=
    .watchExpression 1 _ ((Finished.new steppingOptions).ofCompiled (by decide +kernel))
  have hplace : ((stepped.block? 0).bind fun b => b.code[2]?.bind fun i => i.debug.map fun d =>
      (i.opcode, d.nextSteps)) = some (.cjmp, [some 3, some 9]) := by decide +kernel
  obtain ⟨b, hb, hplace⟩ := Option.bind_eq_some_iff.mp hplace
  obtain ⟨i, hi, hplace⟩ := Option.bind_eq_some_iff.mp hplace
  obtain ⟨d, hd, hplace⟩ := Option.map_eq_some_iff.mp hplace
  obtain ⟨hop, hsteps⟩ := Prod.mk.injEq _ _ _ _ ▸ hplace
  obtain ⟨hsound, hcomplete⟩ := hs.lists_successors hb hi hd
  have hall := hcomplete.mpr fun hjz => absurd (hop.symm.trans hjz) (by decide)
  exact ⟨hs, b, i, d, hb, hi, hd, hop, hsteps, fun q => ⟨hsound q, hall q⟩⟩

/-- The record of the `jz` of a branch without an alternative leaves out the body, where control goes if
the condition holds. -/
theorem branch_omits_successor :
    let s := ((new steppingOptions).compile
      [.branch (condition 1) [assignment "1" 2] [] (sourceLine 1)] .imperative).2
    s.Finished 1 ∧ s.options.debugRecords = true ∧
      ∃ b i d, s.block? 0 = some b ∧ b.code[2]? = some i ∧ i.debug = some d ∧
        i.Continues 2 3 ∧ some 3 ∉ d.nextSteps := by
  intro s
  have hs : s.Finished 1 := (Finished.new steppingOptions).ofCompiled (by decide +kernel)
  have hplace : ((s.block? 0).bind fun b => b.code[2]?.bind fun i => i.debug.map fun d =>
      (i.opcode, d.nextSteps)) = some (.jz, [some 8]) := by decide +kernel
  obtain ⟨b, hb, hplace⟩ := Option.bind_eq_some_iff.mp hplace
  obtain ⟨i, hi, hplace⟩ := Option.bind_eq_some_iff.mp hplace
  obtain ⟨d, hd, hplace⟩ := Option.map_eq_some_iff.mp hplace
  obtain ⟨hop, hsteps⟩ := Prod.mk.injEq _ _ _ _ ▸ hplace
  refine ⟨hs, by decide +kernel, b, i, d, hb, hi, hd, .behind (by rw [hop]; decide), ?_⟩
  rw [hsteps]
  decide

end Session

end Diglot
