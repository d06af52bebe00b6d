import Diglot.Proofs.Closed.Statement

/-! # Finished code is closed

In a session in which every unit compiled, every block that was filled is finished: it begins at its
first instruction and ends by leaving, and no jump goes anywhere else than into the block itself
(`Finished.isFinished`).
-/

set_option autoImplicit false

namespace Diglot

open Lowering

/-! ## Closed code is left only at a return -/

theorem Closed.step_inside {kind : BlockKind} {code : Array Instruction} (h : Closed kind code)
    {c d : Flow.Control} {events : List Nat} (hstep : Flow.Step code c events d) :
    d.pc < code.size := by
  have htarget {pc target : Nat} {i : Instruction} (hi : code[pc]? = some i)
      (ho : Operand.label (some target) ∈ i.operands) : target < code.size := by
    obtain ⟨_, heq, hlt⟩ := (h.lawful i (Array.mem_of_getElem? hi)).targets _ ho
    cases heq
    exact hlt
  -- Behind an instruction that does not leave, there is another one.
  have hnext {pc : Nat} {i : Instruction} (hi : code[pc]? = some i) (hop : i.opcode ≠ kind.leave) :
      pc + 1 < code.size := by
    have hlt := (Array.getElem?_eq_some_iff.mp hi).1
    refine Nat.lt_of_le_of_ne hlt fun heq => ?_
    obtain ⟨j, hj, hleave⟩ := h.last
    rw [Array.back?_eq_getElem?, ← heq, Nat.add_sub_cancel, hi] at hj
    cases hj
    exact hop hleave
  have hleave : kind.leave = .ret ∨ kind.leave = .retb := by cases kind <;> decide
  cases hstep with
  | straight hi hop =>
    refine hnext hi fun heq => ?_
    exact Flow.not_isStraight_of_return hleave (heq ▸ hop)
  | jmp hi _ ho => exact htarget hi (by simp [Instruction.operands, ho])
  | @cjmp pc holds fails b os i hi _ _ hholds hfails =>
    cases b with
    | true => exact htarget hi (by simp [Instruction.operands, hholds])
    | false => exact htarget hi (by simp [Instruction.operands, hfails])
  | @jz pc fails b os i hi hop _ hfails =>
    cases b with
    | true =>
      refine hnext hi fun heq => ?_
      rw [hop] at heq
      rcases hleave with h | h <;> rw [h] at heq <;> cases heq
    | false => exact htarget hi (by simp [Instruction.operands, hfails])

theorem Closed.steps_inside {kind : BlockKind} {code : Array Instruction} (h : Closed kind code)
    {c d : Flow.Control} {trace : List Nat} (hsteps : Flow.Steps code c trace d)
    (hc : c.pc < code.size) : d.pc < code.size := by
  induction hsteps with
  | refl => exact hc
  | head hstep _ ih => exact ih (h.step_inside hstep)

/-! ## Finished blocks -/

/-- The code of a block that has been filled to the end. -/
structure Block.IsFinished (b : Block) : Prop where
  entry : b.entry = some 0
  last : ∃ i, b.code.back? = some i ∧ i.opcode = if b.kind = .function then .ret else .retb
  leaves : ∀ i ∈ b.code, (i.opcode = .ret → b.kind = .function) ∧
    (i.opcode = .retb → b.kind ≠ .function) ∧ i.opcode ≠ .retcn
  targets : ∀ i ∈ b.code, ∀ l, Operand.label l ∈ i.operands → ∃ pc, l = some pc ∧ pc < b.code.size
  /-- Control stays in the block, whatever the conditions yield. -/
  inside : ∀ os trace d, Flow.Steps b.code ⟨0, os⟩ trace d → d.pc < b.code.size

theorem Closed.finishes {b : Block} (h : Closed b.kind b.code)
    (hentry : b.entry = if b.code.isEmpty then none else some 0) : b.IsFinished := by
  obtain ⟨i, hi, hop⟩ := h.last
  have hpos : 0 < b.code.size := by
    refine Nat.pos_of_ne_zero fun hzero => ?_
    rw [Array.eq_empty_of_size_eq_zero hzero] at hi
    cases hi
  have hleave : b.kind.leave = if b.kind = .function then .ret else .retb := by
    cases b.kind <;> rfl
  refine ⟨?_, ⟨i, hi, hop.trans hleave⟩, fun j hj => ⟨fun hret => ?_, fun hret => ?_, fun hret => ?_⟩,
    fun j hj => (h.lawful j hj).targets, fun os trace d hsteps => h.steps_inside hsteps hpos⟩
  · rw [hentry, if_neg]
    exact fun hempty => by simp [Array.isEmpty_iff.mp hempty] at hpos
  · exact BlockKind.leave_eq_ret.mp (hret ▸ ((h.lawful j hj).leaves (.inl hret)).symm)
  · exact BlockKind.leave_eq_retb.mp (hret ▸ ((h.lawful j hj).leaves (.inr (.inl hret))).symm)
  · have := (h.lawful j hj).leaves (.inr (.inr hret))
    rw [hret, hleave] at this
    split at this <;> cases this

/-- An instruction of a watch expression. -/
def Instruction.IsWatch (i : Instruction) : Prop := i.IsPlain ∨ i.opcode = .retcn ∧ i.HasNoLabel

namespace Session

/-- If the request compiles a unit, it goes through. -/
def Accepted (s : Session) : Request → Prop
  | .compile unit dialect => ∃ block, (s.compile unit dialect).1 = .ok block
  | _ => True

/-- The session can be reached by calls on a new session, `n` of which compiled a unit, and all of
these went through. -/
def Finished (n : Nat) (s : Session) : Prop :=
  ∃ options requests, (new options).Calls Accepted requests s ∧ requests.countP Request.isCompile = n

theorem accepted_of_toBool {s : Session} {unit : List Node} {dialect : Dialect}
    (hok : (s.compile unit dialect).1.toBool = true) : s.Accepted (.compile unit dialect) := by
  cases hresult : (s.compile unit dialect).1 with
  | ok block => exact ⟨block, hresult⟩
  | error e =>
    rw [hresult] at hok
    cases hok

theorem Finished.new (options : Options) : (new options).Finished 0 := ⟨options, [], .refl, rfl⟩

theorem Finished.call {n : Nat} {s : Session} (h : s.Finished n) (request : Request)
    (haccepted : s.Accepted request) :
    (s.serve request).2.Finished (n + [request].countP Request.isCompile) := by
  obtain ⟨options, requests, hcalls, rfl⟩ := h
  exact ⟨options, _, hcalls.call request haccepted, List.countP_append⟩

theorem Finished.ofCompiled {n : Nat} {s : Session} {unit : List Node} {dialect : Dialect}
    (h : s.Finished n) (hok : (s.compile unit dialect).1.toBool = true) :
    (s.compile unit dialect).2.Finished (n + 1) := h.call (.compile unit dialect) (accepted_of_toBool hok)

theorem Finished.watchExpression {n : Nat} {s : Session} (id : Nat) (node : Node) (h : s.Finished n) :
    (s.watchExpression id node).2.Finished n := h.call (.watchExpression id node) trivial

/-- Before the first unit there is no code, and afterwards all code is closed. -/
structure Proper (n : Nat) (s : Session) : Prop where
  units : s.counters.units = n
  begun : s.Begun
  filled : 0 < n → 0 < s.blocks.size
  unfilled : n = 0 → ∀ j k code, s.text j = some (k, code) → j = 0 ∧ k = .global ∧ code = #[]
  closed : 0 < n → ∀ j k code, s.text j = some (k, code) → Closed k code
  watch : ∀ i ∈ s.watch, i.IsWatch

variable {n : Nat} {s : Session}

theorem Proper.silent {t : Session} (h : s.Proper n) (hst : s.Silent t) : t.Proper n := by
  refine ⟨hst.units.trans h.units, hst.begun h.begun, fun hn => ?_, ?_, ?_, ?_⟩
  · rw [← t.text_isSome, hst.text, s.text_isSome]
    exact h.filled hn
  · rw [hst.text]
    exact h.unfilled
  · rw [hst.text]
    exact h.closed
  · rw [hst.watch]
    exact h.watch

theorem proper_new (options : Options) : (new options).Proper 0 := by
  have htext (j : Nat) : (new options).text j = none := rfl
  refine ⟨rfl, ?_, fun hpos => absurd hpos (Nat.lt_irrefl 0), fun _ j k code hj => ?_,
    fun hpos => absurd hpos (Nat.lt_irrefl 0), fun _ hi => absurd hi (Array.not_mem_empty _)⟩
  · intro _ _ hb
    cases hb
  · rw [htext] at hj
    cases hj

/-- In a session without blocks, the first one stands alone. -/
theorem text_addFirst (hempty : s.blocks.size = 0) (dialect : Dialect) {j : Nat} {k : BlockKind}
    {code : Array Instruction} (h : (s.addBlock .global dialect none).text j = some (k, code)) :
    j = 0 ∧ k = .global ∧ code = #[] := by
  have hnone : s.text j = none := by
    refine Option.not_isSome_iff_eq_none.mp fun hsome => ?_
    have := (s.text_isSome j).mp hsome
    omega
  rw [text_addBlock, hempty, hnone] at h
  split at h
  · next heq =>
    cases h
    exact ⟨heq, rfl, rfl⟩
  · cases h

theorem Proper.importSymbol (h : s.Proper n) (name : String) (type : Ty) (library : String) :
    (s.importSymbol name type library).2.Proper n := by
  have hstart : (if s.blocks.isEmpty then s.addBlock .global .associative none else s).Proper n := by
    split
    · next hempty =>
      have hzero : s.blocks.size = 0 := Array.isEmpty_iff_size_eq_zero.mp hempty
      have hn : ¬ 0 < n := fun hpos => absurd (h.filled hpos) (by omega)
      exact ⟨h.units, h.begun.addBlock _ _ _, fun hpos => absurd hpos hn,
        fun _ _ _ _ => text_addFirst hzero _, fun hpos => absurd hpos hn, h.watch⟩
    · exact h
  unfold Session.importSymbol
  generalize (if s.blocks.isEmpty then s.addBlock .global .associative none else s) = t at hstart ⊢
  dsimp only
  refine hstart.silent (Silent.trans ?_ (silent_modifyBlock ?_ ?_ ?_ _ 0))
  · exact ⟨rfl, rfl, rfl, rfl, rfl, id⟩
  · exact fun _ => rfl
  · exact fun _ => rfl
  · exact fun _ => rfl

/-! ## Compiling -/

/-- The block of a unit is empty when the unit is begun, and all others are closed. -/
structure IsUnitStart (block : Nat) (s t : Session) : Prop where
  own : t.text block = some (.global, #[])
  others : ∀ j k code, j ≠ block → t.text j = some (k, code) → Closed k code
  begun : t.Begun
  counters : t.counters = s.counters
  watch : t.watch = s.watch
  isWatching : t.isWatching = s.isWatching

theorem Proper.openUnit (h : s.Proper n) (dialect : Dialect) :
    IsUnitStart (s.openUnit dialect).1 s (s.openUnit dialect).2 := by
  unfold Session.openUnit
  by_cases hunits : s.counters.units = 0
  · have hn : n = 0 := h.units ▸ hunits
    rw [if_pos hunits]
    by_cases hempty : s.blocks.isEmpty
    · have hzero : s.blocks.size = 0 := Array.isEmpty_iff_size_eq_zero.mp hempty
      rw [if_pos hempty]
      refine ⟨?_, fun j k code hj htext => ?_, h.begun.addBlock _ _ _, rfl, rfl, rfl⟩
      · rw [text_addBlock, hzero, if_pos rfl]
      · exact absurd (text_addFirst hzero dialect htext).1 hj
    · have hpos : 0 < s.blocks.size := by
        refine Nat.pos_of_ne_zero fun hzero => hempty ?_
        exact Array.isEmpty_iff_size_eq_zero.mpr hzero
      have hsilent : s.Silent (s.modifyBlock 0 fun b => { b with dialect }) := by
        refine silent_modifyBlock ?_ ?_ ?_ s 0
        · exact fun _ => rfl
        · exact fun _ => rfl
        · exact fun _ => rfl
      rw [if_neg hempty]
      refine ⟨?_, fun j k code hj hj' => ?_, hsilent.begun h.begun, rfl, rfl, rfl⟩
      · rw [hsilent.text]
        obtain ⟨⟨k, code⟩, hfirst⟩ := Option.isSome_iff_exists.mp ((s.text_isSome 0).mpr hpos)
        obtain ⟨_, rfl, rfl⟩ := h.unfilled hn 0 k code hfirst
        exact hfirst
      · rw [hsilent.text] at hj'
        exact absurd (h.unfilled hn j k code hj').1 hj
  · have hn : 0 < n := by
      have := h.units
      omega
    rw [if_neg hunits]
    refine ⟨?_, fun j k code hj htext => ?_, h.begun.addBlock _ _ _, counters_addBlock .., rfl, rfl⟩
    · rw [text_addBlock, if_pos rfl]
    · rw [text_addBlock, if_neg hj] at htext
      exact h.closed hn j k code htext

theorem Proper.compile (h : s.Proper n) {unit : List Node} {dialect : Dialect} {block : Nat}
    (hok : (s.compile unit dialect).1 = .ok block) : (s.compile unit dialect).2.Proper (n + 1) := by
  have hquiet : { s with isWatching := false }.Proper n :=
    ⟨h.units, h.begun, h.filled, h.unfilled, h.closed, h.watch⟩
  have hopen := hquiet.openUnit dialect
  have hunits : (s.unitStart dialect).2.counters.units = n + 1 := by
    change (Session.openUnit _ dialect).2.counters.units + 1 = n + 1
    rw [hopen.counters]
    exact congrArg Nat.succ h.units
  have hseat : Seated (unitFrame (s.unitStart dialect).1 .global dialect unit)
      (s.unitStart dialect).2 := by
    refine ⟨hopen.isWatching, ⟨.global, #[], hopen.own, rfl⟩, fun b hb => ?_⟩
    cases hb
  rw [compile_eq] at hok ⊢
  generalize hrun : lowerCode unit _ _ = r at hok ⊢
  cases r with
  | error stop t => cases hok
  | ok a t =>
    obtain ⟨hbeside, code, hown, hclosed⟩ := lowerCode_closed
      (f := unitFrame (s.unitStart dialect).1 .global dialect unit)
      (s := { session := (s.unitStart dialect).2 }) (fun m _ => laysOut m) hseat rfl hopen.own hrun
    have hclosed' : ∀ j k code, t.session.text j = some (k, code) → Closed k code := by
      intro j k code' hj
      by_cases heq : j = (s.unitStart dialect).1
      · subst heq
        cases hown.symm.trans hj
        exact hclosed
      · by_cases hlt : j < (s.unitStart dialect).2.blocks.size
        · rw [hbeside.old j hlt heq] at hj
          exact hopen.others j k code' heq hj
        · exact hbeside.added j k code' (Nat.le_of_not_lt hlt) hj
    refine ⟨hbeside.units.trans hunits, hbeside.begun hopen.begun, fun _ => ?_,
      fun hzero => absurd hzero (Nat.succ_ne_zero n), fun _ => hclosed', fun i hi => ?_⟩
    · exact Nat.lt_of_lt_of_le (Nat.lt_of_le_of_lt (Nat.zero_le _) hseat.inside) hbeside.size_le
    · rw [hbeside.watch hopen.isWatching] at hi
      exact h.watch i (hopen.watch ▸ hi)

/-! ## Watching -/

theorem Proper.watchExpression (h : s.Proper n) (id : Nat) (node : Node) :
    (s.watchExpression id node).2.Proper n := by
  cases hb : s.block? id with
  | none =>
    unfold Session.watchExpression
    rw [hb]
    exact h
  | some b =>
    have hcourse := Composed.lowerWatch (w := true) (D := False) (P := Instruction.IsWatch) node
      (fun _ hi => hi) (s.watchSite id b) { session := { s with isWatching := true } } False.elim
    have hnot : ¬ ∀ i : Instruction, i.IsWatch := by
      intro hall
      rcases hall (.bare .ret) with hplain | ⟨hop, _⟩
      · exact absurd hplain.1 (by decide)
      · cases hop
    obtain ⟨l, hl, hw⟩ := hcourse.wrote hnot
    have hresult : (s.watchExpression id node).2 =
        { final (lowerWatch node (s.watchSite id b) { session := { s with isWatching := true } }) with
          isWatching := false } := by
      rw [watchExpression_eq hb]
      cases lowerWatch node _ _ <;> rfl
    rw [hresult]
    generalize final (lowerWatch node _ _) = t at hw ⊢
    have htext (j : Nat) : t.text j = s.text j := by
      by_cases hj : j = (s.watchSite id b).block
      · subst hj
        exact hw.own
      · exact hw.others j hj
    refine ⟨hw.units.trans h.units, hw.begun h.begun, fun hn => ?_, fun hn j k code hj => ?_,
      fun hn j k code hj => ?_, fun i hi => ?_⟩
    · change 0 < t.blocks.size
      rw [← t.text_isSome, htext, s.text_isSome]
      exact h.filled hn
    · exact h.unfilled hn j k code ((htext j).symm.trans hj)
    · exact h.closed hn j k code ((htext j).symm.trans hj)
    · have hwatch : t.watch = s.watch ++ l := hw.watch
      have hi' : i ∈ s.watch ++ l := hwatch ▸ (hi : i ∈ t.watch)
      rcases Array.mem_append.mp hi' with hi' | hi'
      · exact h.watch i hi'
      · exact hl i hi'

theorem Finished.proper (h : s.Finished n) : s.Proper n := by
  obtain ⟨options, requests, hcalls, rfl⟩ := h
  induction hcalls with
  | refl => exact proper_new options
  | @call requests t request _ haccepted ih =>
    rw [List.countP_append]
    cases request with
    | setFile file => exact ih.silent ⟨rfl, rfl, rfl, rfl, rfl, id⟩
    | setParsingModule on => exact ih.silent ⟨rfl, rfl, rfl, rfl, rfl, id⟩
    | importSymbol name type library => exact ih.importSymbol name type library
    | addClass c =>
      change (t.addClass c).2.Proper _
      unfold Session.addClass
      split
      · exact ih.silent ⟨rfl, rfl, rfl, rfl, rfl, id⟩
      · exact ih
    | addMethod cls p =>
      change (t.addMethod cls p).2.Proper _
      unfold Session.addMethod
      split
      · exact ih.silent ⟨rfl, rfl, rfl, rfl, rfl, id⟩
      · exact ih
    | addProcedure p => exact ih.silent ⟨rfl, rfl, rfl, rfl, rfl, id⟩
    | compile unit dialect =>
      obtain ⟨block, hok⟩ := haccepted
      exact ih.compile hok
    | watchExpression id node => exact ih.watchExpression id node

/-- In a session in which every unit compiled, all blocks are finished, and the watch stream knows
neither places in the code nor the instructions that leave a block. -/
theorem Finished.isFinished (h : s.Finished n) :
    (0 < n → ∀ b ∈ s.blocks, b.IsFinished) ∧
      ∀ i ∈ s.watch, i.opcode ≠ .ret ∧ i.opcode ≠ .retb ∧ i.HasNoLabel := by
  have hp := h.proper
  refine ⟨fun hn b hb => ?_, fun i hi => ?_⟩
  · obtain ⟨id, hid⟩ := Array.mem_iff_getElem?.mp hb
    have htext : s.text id = some (b.kind, b.code) := by
      unfold text block?
      rw [hid]
      rfl
    exact (hp.closed hn id _ _ htext).finishes (hp.begun id b hid)
  · rcases hp.watch i hi with hplain | ⟨hop, hlabel⟩
    · refine ⟨fun hop => ?_, fun hop => ?_, hplain.2⟩
      · exact absurd (hop ▸ hplain.1) (by decide)
      · exact absurd (hop ▸ hplain.1) (by decide)
    · rw [hop]
      exact ⟨by decide, by decide, hlabel⟩

/-- A function without a return, a loop that is left from inside a branch, and a language block. -/
def sampleUnit : List Node :=
  [.function
    { name := "f", params := [], returns := .var, body := [], attributes := [], isStatic := false
      isConstructor := false, access := .isPublic, span := .nil },
   .loop (.literal .bool "true" .nil)
    [.branch (.literal .bool "false" .nil) [.breakLoop .nil] [.continueLoop .nil] .nil] .nil,
   .block .associative [.assign (.identifier (.plain "x" .nil)) (.literal .int "1" .nil) .nil] .nil]

/-- The unit, its function and its language block are finished, and a watch expression in the function
leaves them so. -/
theorem sampleUnit_isFinished :
    let s := (((new {}).compile sampleUnit .imperative).2.watchExpression 1
      (.literal .int "2" .nil)).2
    s.Finished 1 ∧ s.blocks.size = 3 ∧ s.watch.size = 3 ∧ (∀ b ∈ s.blocks, b.IsFinished) ∧
      ∀ i ∈ s.watch, i.opcode ≠ .ret ∧ i.opcode ≠ .retb ∧ i.HasNoLabel := by
  intro s
  have hs : s.Finished 1 := .watchExpression 1 _ ((Finished.new {}).ofCompiled (by decide +kernel))
  refine ⟨hs, by decide +kernel, by decide +kernel, ?_⟩
  exact ⟨hs.isFinished.1 Nat.one_pos, hs.isFinished.2⟩

end Session

end Diglot
