import Diglot.Proofs.Origins.Codes

/-! # Who runs a language block

When the code of a language block has been lowered, the block around it goes on to run it, by one bounce. So
every language block is run from one place, which lies in its parent; only the blocks that are being lowered
are not run yet.

* `Session.RunsAt`: the instruction at a place runs the block.
* `Session.IsRun`: the block is run once, by its parent, from where its code begins.
* `Session.Bounced`: so is every language block but for those that wait to be run.
* `bouncing`: lowering keeps this.
-/

set_option autoImplicit false

namespace Diglot

open Lowering

/-- The instruction runs the block. -/
def Instruction.Runs (i : Instruction) (child : Nat) : Prop :=
  i.opcode = .bounce ∧ i.op1 = some (.block child)

theorem Instruction.IsStandalone.not_bounce {i : Instruction} (h : i.IsStandalone) :
    i.opcode ≠ .bounce := by
  intro hop
  unfold IsStandalone isReference at h
  rw [hop] at h
  cases h

namespace Session

/-- The instruction at a place in the code of a block. -/
def instruction? (s : Session) (id pc : Nat) : Option Instruction :=
  (s.text id).bind fun p => p.2[pc]?

/-- The instruction at a place in the code of a block runs another block. -/
def RunsAt (s : Session) (child id pc : Nat) : Prop :=
  ∃ i, s.instruction? id pc = some i ∧ i.Runs child

/-- The block is run from one place, which lies in its parent, and from where its code begins: at its first
instruction. -/
def IsRun (s : Session) (child : Nat) (l : Links) : Prop :=
  ∃ id pc i, s.instruction? id pc = some i ∧
    i.IsOf (.binary .bounce (.block child) (.int (Operand.clamp 0))) ∧ l.parent = some id ∧
    ∀ id' pc', s.RunsAt child id' pc' → id' = id ∧ pc' = pc

variable {s t : Session} {id : Nat} {l : Array Instruction}

/-! ## Places of instructions -/

theorem runsAt_ofText (h : t.text = s.text) : t.RunsAt = s.RunsAt := by
  unfold RunsAt instruction?
  rw [h]

theorem instruction?_stream (hw : s.isWatching = false) (id pc : Nat) :
    s.instruction? id pc = (s.stream id)[pc]? := by
  unfold instruction?
  cases h : s.text id with
  | none =>
    have hb : s.block? id = none := Option.map_eq_none_iff.mp h
    simp [stream, hw, hb]
  | some p => rw [stream_of_text hw (show s.text id = some (p.1, p.2) from h), Option.bind_some]

theorem lt_of_instruction? {pc : Nat} {i : Instruction} (h : s.instruction? id pc = some i) :
    id < s.blocks.size := by
  obtain ⟨p, hp, _⟩ := Option.bind_eq_some_iff.mp h
  exact (s.text_isSome id).mp (hp ▸ rfl)

/-- Behind a run stands what stood there before, or what was written. -/
theorem instruction?_writes (h : Writes id l s t) (j pc : Nat) :
    t.instruction? j pc = s.instruction? j pc ∨
      j = id ∧ s.isWatching = false ∧ (s.stream id).size ≤ pc ∧
        t.instruction? j pc = l[pc - (s.stream id).size]? := by
  by_cases hj : j = id
  case neg => exact .inl (by rw [instruction?, h.others j hj, instruction?])
  subst hj
  cases hw : s.isWatching with
  | true => exact .inl (by rw [instruction?, h.own, hw, if_pos rfl, instruction?])
  | false =>
    cases htext : s.text j with
    | none => exact .inl (by rw [instruction?, h.own, hw, htext, instruction?, htext]; rfl)
    | some p =>
      have hstream : s.stream j = p.2 := stream_of_text (k := p.1) hw htext
      have ht : t.instruction? j pc = (p.2 ++ l)[pc]? := by
        rw [instruction?, h.own, hw, htext]
        rfl
      rw [ht, hstream, Array.getElem?_append]
      by_cases hlt : pc < p.2.size
      · rw [if_pos hlt]
        exact .inl (by rw [instruction?, htext, Option.bind_some])
      · rw [if_neg hlt]
        exact .inr ⟨rfl, rfl, Nat.le_of_not_lt hlt, rfl⟩

theorem runsAt_of_writes (h : Writes id l s t) {child j pc : Nat} (hrun : t.RunsAt child j pc) :
    s.RunsAt child j pc ∨ j = id ∧ s.isWatching = false ∧ (s.stream id).size ≤ pc ∧
      ∃ i, l[pc - (s.stream id).size]? = some i ∧ i.Runs child := by
  obtain ⟨i, hi, hruns⟩ := hrun
  rcases instruction?_writes h j pc with heq | ⟨hj, hw, hle, heq⟩
  · exact .inl ⟨i, heq ▸ hi, hruns⟩
  · exact .inr ⟨hj, hw, hle, i, heq ▸ hi, hruns⟩

theorem instruction?_written (h : Writes id l s t) {j pc : Nat} {i : Instruction}
    (hi : s.instruction? j pc = some i) : t.instruction? j pc = some i := by
  rcases instruction?_writes h j pc with heq | ⟨rfl, hw, hle, _⟩
  · exact heq.trans hi
  · rw [instruction?_stream hw, Array.getElem?_eq_none hle] at hi
    cases hi

theorem size_writes (h : Writes id l s t) : t.blocks.size = s.blocks.size := by
  have hsome (j : Nat) : (t.text j).isSome = (s.text j).isSome := by
    by_cases hj : j = id
    · rw [hj, h.own]
      split
      · rfl
      · exact Option.isSome_map
    · rw [h.others j hj]
  have hlt (j : Nat) : j < t.blocks.size ↔ j < s.blocks.size := by
    rw [← text_isSome, ← text_isSome, hsome]
  have := hlt s.blocks.size
  have := hlt t.blocks.size
  omega

/-! ## Blocks that are run -/

/-- Every language block is run once, by its parent, but for those that wait to be run. -/
structure Bounced (waiting : List Nat) (s : Session) : Prop where
  begun : s.Begun
  watch : ∀ i ∈ s.watch, i.opcode ≠ .bounce
  nodup : waiting.Nodup
  inside : ∀ child ∈ waiting, child < s.blocks.size
  targets : ∀ child id pc, s.RunsAt child id pc → child < s.blocks.size ∧ child ∉ waiting
  run : ∀ child l, s.links? child = some l → l.kind = .language → child ∉ waiting → s.IsRun child l

theorem IsRun.transfer {child : Nat} {k k' : Links} (h : s.IsRun child k)
    (hparent : k'.parent = k.parent)
    (hcode : ∀ id pc i, s.instruction? id pc = some i → i.opcode = .bounce →
      t.instruction? id pc = some i)
    (hruns : ∀ id pc, t.RunsAt child id pc → s.RunsAt child id pc) : t.IsRun child k' := by
  obtain ⟨id, pc, i, hi, hof, hp, honly⟩ := h
  have hop : i.opcode = .bounce := by
    obtain ⟨debug, rfl⟩ := hof
    rfl
  exact ⟨id, pc, i, hcode id pc i hi hop, hof, hparent.trans hp, fun id' pc' hrun =>
    honly id' pc' (hruns id' pc' hrun)⟩

namespace Bounced

variable {waiting : List Nat}

/-- Neither blocks nor bounces were added. -/
theorem still (h : s.Bounced waiting) (hbegun : t.Begun) (hwatch : ∀ i ∈ t.watch, i.opcode ≠ .bounce)
    (hsize : t.blocks.size = s.blocks.size) (hplaces : s.KeepsPlaces t)
    (hcode : ∀ id pc i, s.instruction? id pc = some i → i.opcode = .bounce →
      t.instruction? id pc = some i)
    (hruns : ∀ child id pc, t.RunsAt child id pc → s.RunsAt child id pc) : t.Bounced waiting := by
  refine ⟨hbegun, hwatch, h.nodup, fun child hc => hsize ▸ h.inside child hc,
    fun child id pc hrun => hsize ▸ h.targets child id pc (hruns child id pc hrun),
    fun child k' hk' hkind hc => ?_⟩
  have hlt := hsize ▸ lt_of_links? hk'
  have hk : s.links? child = some (s.blocks[child]).links := by
    unfold links? block?
    rw [Array.getElem?_eq_getElem hlt, Option.map_some]
  obtain ⟨k'', hk'', hsamekind, hparent⟩ := hplaces child _ hk
  cases hk'.symm.trans hk''
  exact (h.run child _ hk (hsamekind ▸ hkind) hc).transfer hparent hcode (hruns child)

/-- Only the blocks matter, and the watch code. -/
theorem ofBlocks (h : s.Bounced waiting) (hblocks : t.blocks = s.blocks) (hwatch : t.watch = s.watch) :
    t.Bounced waiting := by
  have htext := text_of_blocks hblocks
  refine h.still (begun_of_blocks hblocks h.begun) (hwatch ▸ h.watch) (congrArg Array.size hblocks)
    (.ofSame (links?_of_blocks hblocks)) (fun id pc i hi _ => ?_) fun child id pc hrun => ?_
  · rw [instruction?, htext]
    exact hi
  · rwa [← runsAt_ofText htext]

/-- What was written is no bounce. -/
theorem writes (h : s.Bounced waiting) (hw : Writes id l s t) (hplaces : s.KeepsPlaces t)
    (hl : ∀ i ∈ l, i.opcode ≠ .bounce) : t.Bounced waiting := by
  refine h.still (hw.begun h.begun) (fun i hi => ?_) (size_writes hw) hplaces
    (fun id pc i hi _ => instruction?_written hw hi) fun child j pc hrun => ?_
  · rw [hw.watch] at hi
    split at hi
    · rcases Array.mem_append.mp hi with hi | hi
      · exact h.watch i hi
      · exact hl i hi
    · exact h.watch i hi
  · rcases runsAt_of_writes hw hrun with hrun | ⟨_, _, _, i, hi, hop, _⟩
    · exact hrun
    · exact absurd hop (hl i (Array.mem_of_getElem? hi))

/-- A block that is added has to wait. -/
theorem opening {kind : BlockKind} {parent : Option Nat} {new : Links} (h : s.Bounced waiting)
    (hbegun : t.Begun) (hwatch : t.watch = s.watch)
    (htext : ∀ id, t.text id = if id = s.blocks.size then some (kind, #[]) else s.text id)
    (hlinks : ∀ i, t.links? i = if i = s.blocks.size then some new
      else (s.links? i).map (Links.adopt parent i s.blocks.size)) :
    t.Bounced (s.blocks.size :: waiting) := by
  have hsize : t.blocks.size = s.blocks.size + 1 := by
    have hlt (id : Nat) : id < t.blocks.size ↔ id = s.blocks.size ∨ id < s.blocks.size := by
      rw [← text_isSome, ← text_isSome, htext]
      split <;> simp_all
    have := hlt t.blocks.size
    have := hlt (t.blocks.size - 1)
    have := hlt s.blocks.size
    omega
  have hold {id : Nat} (hid : id ≠ s.blocks.size) (pc : Nat) :
      t.instruction? id pc = s.instruction? id pc := by rw [instruction?, htext, if_neg hid, instruction?]
  have hruns (child id pc : Nat) (hrun : t.RunsAt child id pc) : s.RunsAt child id pc := by
    obtain ⟨i, hi, hr⟩ := hrun
    by_cases hid : id = s.blocks.size
    · rw [instruction?, htext, if_pos hid] at hi
      cases hi
    · exact ⟨i, hold hid pc ▸ hi, hr⟩
  refine ⟨hbegun, hwatch ▸ h.watch, ?_, fun child hc => ?_, fun child id pc hrun => ?_,
    fun child k' hk' hkind hc => ?_⟩
  · exact List.nodup_cons.mpr ⟨fun hc => absurd (h.inside _ hc) (Nat.lt_irrefl _), h.nodup⟩
  · rw [hsize]
    rcases List.mem_cons.mp hc with rfl | hc
    · exact Nat.lt_succ_self _
    · exact Nat.lt_succ_of_lt (h.inside child hc)
  · obtain ⟨hlt, hnot⟩ := h.targets child id pc (hruns child id pc hrun)
    refine ⟨hsize ▸ Nat.lt_succ_of_lt hlt, fun hc => ?_⟩
    rcases List.mem_cons.mp hc with rfl | hc
    · exact absurd hlt (Nat.lt_irrefl _)
    · exact hnot hc
  · have hne := List.ne_of_not_mem_cons hc
    have hc := List.not_mem_of_not_mem_cons hc
    rw [hlinks, if_neg hne] at hk'
    obtain ⟨k, hk, rfl⟩ := Option.map_eq_some_iff.mp hk'
    have hsame : (k.adopt parent child s.blocks.size).kind = k.kind ∧
        (k.adopt parent child s.blocks.size).parent = k.parent := by
      unfold Links.adopt
      split <;> exact ⟨rfl, rfl⟩
    refine (h.run child k hk (hsame.1 ▸ hkind) hc).transfer hsame.2 (fun id pc i hi _ => ?_)
      (hruns child)
    rw [hold (Nat.ne_of_lt (lt_of_instruction? hi))]
    exact hi

/-- A block that is not a language block does not have to be run. -/
theorem drop {body : Nat} (h : s.Bounced (body :: waiting)) (hkind : s.kind? body ≠ some .language) :
    s.Bounced waiting := by
  obtain ⟨_, hnodup⟩ := List.nodup_cons.mp h.nodup
  refine ⟨h.begun, h.watch, hnodup, fun child hc => h.inside child (List.mem_cons_of_mem body hc),
    fun child id pc hrun => ?_, fun child k hk hlanguage hc => ?_⟩
  · obtain ⟨hlt, hnot⟩ := h.targets child id pc hrun
    exact ⟨hlt, fun hc => hnot (List.mem_cons_of_mem body hc)⟩
  · refine h.run child k hk hlanguage (List.not_mem_cons_of_ne_of_not_mem (fun heq => ?_) hc)
    obtain ⟨b, hb, rfl⟩ := links?_eq_some.mp hk
    rw [← heq, kind?, hb, Option.map_some] at hkind
    exact hkind (congrArg some hlanguage)

/-- The block that was lowered last is run by its parent. -/
theorem bounce {child : Nat} {k : Links} {i : Instruction} (h : s.Bounced (child :: waiting))
    (hw : Writes id #[i] s t) (hplaces : s.KeepsPlaces t) (hwatching : s.isWatching = false)
    (hcan : s.CanEmit id) (hk : s.links? child = some k) (hparent : k.parent = some id)
    (hi : i.IsOf (.binary .bounce (.block child) (.int (Operand.clamp 0)))) : t.Bounced waiting := by
  have hruns (child' id' pc' : Nat) (hrun : t.RunsAt child' id' pc') : s.RunsAt child' id' pc' ∨
      child' = child ∧ id' = id ∧ pc' = (s.stream id).size := by
    rcases runsAt_of_writes hw hrun with hrun | ⟨hid, _, hle, j, hj, _, hop⟩
    · exact .inl hrun
    · rw [Array.getElem?_singleton] at hj
      split at hj
      · next hzero =>
        obtain ⟨debug, rfl⟩ := hi
        cases hj
        cases hop
        exact .inr ⟨rfl, hid, by omega⟩
      · cases hj
  have hsize := size_writes hw
  obtain ⟨hfresh, hnodup⟩ := List.nodup_cons.mp h.nodup
  refine ⟨hw.begun h.begun, ?_, hnodup, fun c hc => ?_, fun c id' pc' hrun => ?_,
    fun c k' hk' hkind hc => ?_⟩
  · rw [hw.watch, hwatching]
    exact h.watch
  · exact hsize ▸ h.inside c (List.mem_cons_of_mem child hc)
  · rcases hruns c id' pc' hrun with hrun | ⟨rfl, _, _⟩
    · obtain ⟨hlt, hnot⟩ := h.targets c id' pc' hrun
      exact ⟨hsize ▸ hlt, fun hc => hnot (List.mem_cons_of_mem child hc)⟩
    · exact ⟨hsize ▸ lt_of_links? hk, hfresh⟩
  have hlt := hsize ▸ lt_of_links? hk'
  have hold : s.links? c = some (s.blocks[c]).links := by
    unfold links? block?
    rw [Array.getElem?_eq_getElem hlt, Option.map_some]
  obtain ⟨k'', hk'', hsamekind, hsameparent⟩ := hplaces c _ hold
  cases hk'.symm.trans hk''
  by_cases heq : c = child
  · subst heq
    cases hk.symm.trans hold
    refine ⟨id, (s.stream id).size, i, ?_, hi, hsameparent.trans hparent, fun id' pc' hrun => ?_⟩
    · rw [instruction?_stream (hw.isWatching.trans hwatching), stream_writes hw hcan]
      simp
    · rcases hruns c id' pc' hrun with hrun | ⟨_, hid, hpc⟩
      · exact absurd (List.mem_cons_self ..) (h.targets c id' pc' hrun).2
      · exact ⟨hid, hpc⟩
  · have hnot : c ∉ child :: waiting := List.not_mem_cons_of_ne_of_not_mem heq hc
    refine (h.run c _ hold (hsamekind ▸ hkind) hnot).transfer hsameparent
      (fun _ _ _ hi _ => instruction?_written hw hi) fun id' pc' hrun => ?_
    exact (hruns c id' pc' hrun).resolve_right fun hother => heq hother.1

/-- A jump that is patched is no bounce, before and after. -/
theorem patched {block pending target : Nat} {i j : Instruction} (h : s.Bounced waiting)
    (hwatching : s.isWatching = false) (hi : (s.stream block)[pending]? = some i)
    (hj : i.patch target = .ok j) (hplaces : s.KeepsPlaces (s.replaceCode block pending j)) :
    (s.replaceCode block pending j).Bounced waiting := by
  have hreplace : s.replaceCode block pending j =
      s.modifyBlock block fun b => { b with code := b.code.setIfInBounds pending j } := by
    simp [replaceCode, hwatching]
  have hsize : (s.replaceCode block pending j).blocks.size = s.blocks.size := by
    rw [hreplace, size_blocks_modifyBlock]
  have hcode (id pc : Nat) : (s.replaceCode block pending j).instruction? id pc =
      if block = id ∧ pending = pc then some j else s.instruction? id pc := by
    have hinside : block < s.blocks.size :=
      lt_of_instruction? ((instruction?_stream hwatching block pending).trans hi)
    have hwatching' : (s.replaceCode block pending j).isWatching = false := by
      rw [hreplace]
      exact hwatching
    by_cases hid : block = id
    · subst hid
      rw [instruction?_stream hwatching', instruction?_stream hwatching,
        stream_replaceCode hwatching hinside, Array.getElem?_setIfInBounds]
      have hlt := (Array.getElem?_eq_some_iff.mp hi).1
      by_cases hpc : pending = pc
      · simp [hpc ▸ hlt, hpc]
      · simp [hpc]
    · rw [if_neg fun hboth => hid hboth.1, instruction?, instruction?, text, hreplace,
        block?_modifyBlock, if_neg hid, text]
  have hplain : i.opcode ≠ .bounce := (Instruction.isStandalone_of_isJump (isJump_of_patch hj)).not_bounce
  refine h.still ?_ ?_ hsize hplaces (fun id pc k hk hop => ?_) fun child id pc hrun => ?_
  · rw [hreplace]
    refine h.begun.modifyBlock (fun b hb => ?_) block
    rw [hb]
    simp [Array.isEmpty]
  · rw [hreplace]
    exact h.watch
  · rw [hcode, if_neg]
    · exact hk
    · rintro ⟨rfl, rfl⟩
      rw [instruction?_stream hwatching, hi] at hk
      exact hplain (Option.some.inj hk ▸ hop)
  · obtain ⟨k, hk, hop, htarget⟩ := hrun
    rw [hcode] at hk
    split at hk
    · cases hk
      exact absurd hop (Instruction.isStandalone_of_patch hj).not_bounce
    · exact ⟨k, hk, hop, htarget⟩

end Bounced

end Session

/-! ## Lowering has language blocks run -/

namespace Lowering

variable {w : Bool} {path : List Nat} {f : Frame} {s : State}

/-- A run that emits no bounce. -/
theorem bounced_course {α : Type} {m : Lower α} {waiting : List Nat} {P : Instruction → Prop}
    (hr : Ready w f s) (hm : Course True P f s m) (hP : ∀ i, P i → i.opcode ≠ .bounce)
    (h : s.session.Bounced waiting) : (final (m f s)).Bounced waiting := by
  obtain ⟨l, hl, hw⟩ := hm.wrote fun hall => hP _ (hall (.bare .bounce)) rfl
  exact h.writes hw (hm.advances hr).places fun i hi => hP i (hl i hi)

/-- The blocks of the path wait to be run, but for the outermost one. While something is watched, none do. -/
def waiting (w : Bool) (path : List Nat) : List Nat := if w then [] else path.dropLast

/-- A block that is opened in another one waits. -/
theorem Nested.waiting_cons (h : Nested false path f s) (child : Nat) :
    waiting false (child :: path) = child :: waiting false path := by
  cases path with
  | nil => cases h.inside
  | cons => rfl

/-- Lowering has every language block run by the block around it. If it stops early, blocks that were being
lowered are left behind that nothing runs. -/
def bouncing (w : Bool) (source : String → List Node → Prop) : Keeper w where
  source
  holds path s := s.Bounced (waiting w path)
  leaves s := w = true → s.Bounced []
  left h hw := by
    subst hw
    exact h
  standalone h hm hs := bounced_course h.toReady hm (fun _ hi => hi.not_bounce) hs
  known {_ f _ t _ call c r} _ _ _ _ ht _ hs := by
    rw [final_lowerKnownCall]
    have hcourse : Course True (·.opcode ≠ .bounce) f t (emitCallTo .callr r c.depth call.span) :=
      Composed.emit (fun _ => nofun) _ f t fun _ => ht.toReady
    exact bounced_course ht.toReady hcourse (fun _ => id) hs
  late {_ f _ t call} c _ _ _ ht hs := by
    have hcomposed : Composed w True (·.opcode ≠ .bounce) (lowerLateCall call c) := by
      rw [lowerLateCall_eq]
      refine .bind (.enterLateCall _ _) fun i => .bind (.withClass fun _ => ?_) fun _ => .pure _
      exact .emit (fun _ => nofun) _
    exact bounced_course ht.toReady (hcomposed f t fun _ => ht.toReady) (fun _ => id) hs
  setter {_ f s _ _ _ r} depth span h _ hs := by
    have hcourse : Course True (·.opcode ≠ .bounce) f s (emitCallTo .call r depth span) :=
      Composed.emit (fun _ => nofun) _ f s fun _ => h.toReady
    exact bounced_course h.toReady hcourse (fun _ => id) hs
  member {_ f s i} cls span h _ hs := by
    have hcourse : Course True (·.opcode ≠ .bounce) f s (emitPushm (.dynamic i) cls span) :=
      Composed.withBlock (fun _ => .emit (fun _ => nofun) _) f s fun _ => h.toReady
    exact bounced_course h.toReady hcourse (fun _ => id) hs
  patch {_ f _ _ _ _ _} hw h hi hj hs := by
    refine hs.patched (h.mode.trans hw) hi hj (.ofSame ?_)
    exact (Change.patch (K := fun _ => True) (f := f) hi hj trivial).links?_eq
  openBlock {_ f s} dialect hw h hs := by
    subst hw
    rw [h.waiting_cons]
    exact Session.Bounced.opening hs (Session.begun_openBlock hs.begun f dialect) rfl
      (s.session.text_openBlock f dialect) (Session.links?_openBlock h.stands.placed dialect)
  bounce {path f t child b} span hw h hb _ hparent hs := by
    subst hw
    rw [h.waiting_cons] at hs
    have hentry : b.entry.getD 0 = 0 := by
      rw [hs.begun child b hb]
      split <;> rfl
    rw [hentry]
    have hcourse : Course True Anything f t (emitBounce child 0 span) :=
      Composed.emit (fun _ => trivial) span f t fun _ => h.toReady
    obtain ⟨debug, hwrites⟩ := (Mild.emits_emitStepping
      (.binary .bounce (.block child) (.int (Operand.clamp 0))) span []).writes h.toReady.canEmit
    exact Session.Bounced.bounce hs hwrites (hcourse.advances h.toReady).places h.mode
      h.toReady.canEmit (Session.links?_eq_some.mpr ⟨b, hb, rfl⟩) hparent ⟨debug, rfl⟩
  openProcedure {_ f s} p message hw h hs := by
    subst hw
    rw [h.waiting_cons]
    exact Session.Bounced.opening hs (Session.begun_openProcedure hs.begun f p message)
      (s.session.watch_openProcedure f p message) (s.session.text_openProcedure f p message)
      (Session.links?_openProcedure h.stands.placed p message)
  finish {path body s} r entry locals n hw hkind hs := by
    subst hw
    have hdrop : s.Bounced (waiting false path) := by
      cases path with
      | nil => exact hs
      | cons => exact Session.Bounced.drop hs (by rw [hkind]; exact nofun)
    refine hdrop.ofBlocks (Session.blocks_modifyProcedure ..) ?_
    unfold Session.modifyProcedure
    split <;> rfl
  setLocals n h hw := (h hw).ofBlocks rfl rfl
  addClass _ _ _ hs := hs.ofBlocks rfl rfl

end Lowering

end Diglot
