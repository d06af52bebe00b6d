import Diglot.Proofs.Closed.Text

/-! # Statements write drafts

A statement that is lowered to the end writes a draft into its own block (`Laid`): its holes are the
jumps that leave it. Blocks that are opened on the way are closed, and all other blocks keep their
text (`Beside`). The induction is on the weight of the statement.
-/

set_option autoImplicit false

namespace Diglot

open Lowering

/-! ## Text beside a block -/

/-- Blocks that were there keep their text unless they are `own`, and blocks that were added are
closed. -/
structure Beside (own : Nat → Prop) (s t : Session) : Prop where
  isWatching : t.isWatching = s.isWatching
  units : t.counters.units = s.counters.units
  watch : s.isWatching = false → t.watch = s.watch
  size_le : s.blocks.size ≤ t.blocks.size
  old : ∀ j, j < s.blocks.size → ¬ own j → t.text j = s.text j
  added : ∀ j k code, s.blocks.size ≤ j → t.text j = some (k, code) → Closed k code
  begun : s.Begun → t.Begun

/-- No block that was there has another text. -/
abbrev Aside (s t : Session) : Prop := Beside (fun _ => False) s t

theorem Session.size_le_of_text {s t : Session} (h : ∀ j, j < s.blocks.size → (t.text j).isSome) :
    s.blocks.size ≤ t.blocks.size := by
  refine Nat.le_of_not_lt fun hlt => ?_
  have := (t.text_isSome _).mp (h _ hlt)
  omega

namespace Beside

variable {own : Nat → Prop} {s t u : Session}

theorem trans (hown : ∀ j, own j → j < s.blocks.size) (h : Beside own s t) (h' : Beside own t u) :
    Beside own s u := by
  have hsize := h.size_le
  refine ⟨h'.isWatching.trans h.isWatching, h'.units.trans h.units,
    fun hw => (h'.watch (h.isWatching.trans hw)).trans (h.watch hw), Nat.le_trans hsize h'.size_le,
    fun j hj hnot => ?_, fun j k code hj htext => ?_, h'.begun ∘ h.begun⟩
  · rw [h'.old j (by omega) hnot, h.old j hj hnot]
  · by_cases hlt : j < t.blocks.size
    · rw [h'.old j hlt fun hj' => absurd (hown j hj') (by omega)] at htext
      exact h.added j k code hj htext
    · exact h'.added j k code (by omega) htext

theorem mono {own' : Nat → Prop} (h : Beside own s t) (hsub : ∀ j, own j → own' j) :
    Beside own' s t :=
  ⟨h.isWatching, h.units, h.watch, h.size_le, fun j hj hnot => h.old j hj fun hj' => hnot (hsub j hj'),
    h.added, h.begun⟩

theorem ofText (hw : t.isWatching = s.isWatching) (hu : t.counters.units = s.counters.units)
    (hwatch : s.isWatching = false → t.watch = s.watch)
    (hs : ∀ j, (t.text j).isSome = (s.text j).isSome) (h : ∀ j, ¬ own j → t.text j = s.text j)
    (hb : s.Begun → t.Begun) : Beside own s t := by
  have hlt (j : Nat) : j < t.blocks.size ↔ j < s.blocks.size := by
    rw [← Session.text_isSome, ← Session.text_isSome, hs j]
  refine ⟨hw, hu, hwatch, ?_, fun j _ hnot => h j hnot, fun j k code hj htext => ?_, hb⟩
  · refine Session.size_le_of_text fun j hj => ?_
    exact (t.text_isSome j).mpr ((hlt j).mpr hj)
  · have := (hlt j).mp ((t.text_isSome j).mp (by rw [htext]; rfl))
    omega

theorem ofWrites {id : Nat} {l : Array Instruction} (h : Writes id l s t) :
    Beside (· = id) s t := by
  refine ofText h.isWatching h.units (fun hw => ?_) (fun j => ?_) (fun j hj => h.others j hj) h.begun
  · rw [h.watch, hw]
    rfl
  by_cases hj : j = id
  · rw [hj, h.own]
    split
    · rfl
    · exact Option.isSome_map
  · rw [h.others j hj]

end Beside

theorem Aside.ofSilent {s t : Session} (h : s.Silent t) : Aside s t :=
  Beside.ofText h.isWatching h.units (fun _ => h.watch) (fun j => by rw [h.text])
    (fun j _ => congrFun h.text j) h.begun

theorem Aside.trans {s t u : Session} (h : Aside s t) (h' : Aside t u) : Aside s u :=
  Beside.trans (fun _ hj => hj.elim) h h'

/-- A run that may write nothing writes nothing. -/
theorem Aside.ofWrote {id : Nat} {s t : Session} (h : Wrote (fun _ => False) id s t) :
    Aside s t := by
  obtain ⟨l, hl, hw⟩ := h
  have hempty : l = #[] := Array.eq_empty_iff_forall_not_mem.mpr fun i hi => hl i hi
  subst hempty
  have htext (j : Nat) : t.text j = s.text j := by
    by_cases hj : j = id
    · subst hj
      rw [hw.own]
      simp
    · exact hw.others j hj
  exact Beside.ofText hw.isWatching hw.units (fun hnot => by rw [hw.watch, hnot]; rfl)
    (fun j => by rw [htext j]) (fun j _ => htext j) hw.begun

/-! ## Laying out code -/

/-- The code of a block grew by a draft, and what was added beside it is closed. -/
structure Laid (id : Nat) (op : OpCode) (s t : Session) (holes : List Nat) : Prop where
  beside : Beside (· = id) s t
  draft : ∃ k old new, s.text id = some (k, old) ∧ t.text id = some (k, new) ∧
    Draft op old new holes

theorem Session.stream_of_text {s : Session} {id : Nat} {k : BlockKind} {code : Array Instruction}
    (hw : s.isWatching = false) (h : s.text id = some (k, code)) : s.stream id = code := by
  obtain ⟨b, hb, heq⟩ := Option.map_eq_some_iff.mp h
  cases heq
  simp [stream, hw, hb]

namespace Laid

variable {id : Nat} {op : OpCode} {s t u : Session} {holes holes' : List Nat}

theorem inside (h : Laid id op s t holes) : id < s.blocks.size := by
  obtain ⟨k, old, _, hold, _⟩ := h.draft
  exact (s.text_isSome id).mp (by rw [hold]; rfl)

theorem trans (h : Laid id op s t holes) (h' : Laid id op t u holes') :
    Laid id op s u (holes ++ holes') := by
  refine ⟨h.beside.trans (fun j hj => hj ▸ h.inside) h'.beside, ?_⟩
  obtain ⟨k, old, mid, hs, ht, hdraft⟩ := h.draft
  obtain ⟨k', mid', new, ht', hu, hdraft'⟩ := h'.draft
  rw [ht] at ht'
  cases ht'
  exact ⟨k, old, new, hs, hu, hdraft.trans hdraft'⟩

theorem perm (h : Laid id op s t holes) (hp : holes.Perm holes') : Laid id op s t holes' := by
  obtain ⟨k, old, new, hs, ht, hdraft⟩ := h.draft
  exact ⟨h.beside, k, old, new, hs, ht, hdraft.perm hp⟩

theorem ofAside (h : Aside s t) (hid : id < s.blocks.size) : Laid id op s t [] := by
  refine ⟨h.mono fun _ hj => hj.elim, ?_⟩
  obtain ⟨⟨k, code⟩, hs⟩ := Option.isSome_iff_exists.mp ((s.text_isSome id).mpr hid)
  exact ⟨k, code, code, hs, by rw [h.old id hid not_false, hs], .refl op code⟩

section
variable (hw : s.isWatching = false) (hid : id < s.blocks.size)
include hw hid

theorem ofWrites {l : Array Instruction} (h : Writes id l s t)
    (hl : ∀ i ∈ l, i.Lawful op ((s.stream id).size + 1)) : Laid id op s t [] := by
  obtain ⟨⟨k, code⟩, hs⟩ := Option.isSome_iff_exists.mp ((s.text_isSome id).mpr hid)
  rw [Session.stream_of_text hw hs] at hl
  refine ⟨.ofWrites h, k, code, code ++ l, hs, ?_, .append code fun i hi => (hl i hi).mono ?_⟩
  · rw [h.own, hs, hw]
    rfl
  · simp

theorem ofHole {i : Instruction} (h : Writes id #[i] s t)
    (hi : i.Waits op ((s.stream id).size + 2)) : Laid id op s t [(s.stream id).size] := by
  obtain ⟨⟨k, code⟩, hs⟩ := Option.isSome_iff_exists.mp ((s.text_isSome id).mpr hid)
  rw [Session.stream_of_text hw hs] at hi ⊢
  refine ⟨.ofWrites h, k, code, code ++ #[i], hs, ?_, .hole code ?_⟩
  · rw [h.own, hs, hw]
    rfl
  · simpa using hi

end

/-- A patch fills a hole. The target may be the place behind the last instruction. -/
theorem fill {p target : Nat} {i j : Instruction} (h : Laid id op s t (p :: holes))
    (hw : t.isWatching = false) (hi : (t.stream id)[p]? = some i) (hj : i.patch target = .ok j)
    (htarget : target ≤ (t.stream id).size) : Laid id op s (t.replaceCode id p j) holes := by
  obtain ⟨k, old, new, hs, ht, hdraft⟩ := h.draft
  rw [Session.stream_of_text hw ht] at hi htarget
  -- What the patch yields is lawful, since it is the hole that is patched.
  have hlawful : j.Lawful op (new.size + 1) := by
    obtain ⟨_, i', hi', hwaits⟩ := hdraft.waits p (List.mem_cons_self ..)
    obtain ⟨j', hj', hlawful⟩ := hwaits _ target (Nat.le_refl _) (by omega)
    cases hi.symm.trans hi'
    cases hj.symm.trans hj'
    exact hlawful
  have htext (m : Nat) : (t.replaceCode id p j).text m =
      if id = m then some (k, new.setIfInBounds p j) else t.text m := by
    unfold Session.replaceCode Session.text
    rw [if_neg (by simp [hw]), Session.block?_modifyBlock]
    split
    · next heq =>
      subst heq
      obtain ⟨b, hb, heq⟩ := Option.map_eq_some_iff.mp ht
      cases heq
      simp [hb]
    · rfl
  refine ⟨h.beside.trans (fun m hm => hm ▸ h.inside)
      (.ofText ?_ ?_ (fun _ => ?_) (fun m => ?_) (fun m hm => ?_) fun hbegun => ?_),
    k, old, new.setIfInBounds p j, hs, by rw [htext, if_pos rfl], hdraft.fill hlawful⟩
  · unfold Session.replaceCode
    split <;> rfl
  · unfold Session.replaceCode
    split <;> rfl
  · unfold Session.replaceCode
    rw [if_neg (by simp [hw])]
    rfl
  · rw [htext]
    split
    · next heq =>
      rw [← heq, ht]
      rfl
    · rfl
  · rw [htext, if_neg (Ne.symm hm)]
  · unfold Session.replaceCode
    rw [if_neg (by simp [hw])]
    refine hbegun.modifyBlock (fun b hb => ?_) id
    rw [hb]
    simp [Array.isEmpty]

end Laid

/-! ## Frames -/

/-- The instruction that leaves the code of a frame. -/
def Lowering.Frame.leave (f : Frame) : OpCode := if f.scope.isBody f.block then .ret else .retb

/-- The frame belongs to a block that is left as the frame leaves, and no watch expression is
lowered. -/
structure Seated (f : Frame) (s : Session) : Prop where
  notWatching : s.isWatching = false
  own : ∃ k code, s.text f.block = some (k, code) ∧ k.leave = f.leave
  body : ∀ b, f.scope.body = some b → b < s.blocks.size

namespace Seated

variable {f : Frame} {s t : Session}

theorem inside (h : Seated f s) : f.block < s.blocks.size := by
  obtain ⟨k, code, hs, _⟩ := h.own
  exact (s.text_isSome _).mp (by rw [hs]; rfl)

theorem canEmit (h : Seated f s) : s.CanEmit f.block := by
  refine .inr ?_
  simp [Session.block?, h.inside]

theorem laid (h : Seated f s) {op : OpCode} {holes : List Nat} (hst : Laid f.block op s t holes) :
    Seated f t := by
  refine ⟨hst.beside.isWatching.trans h.notWatching, ?_, fun b hb => ?_⟩
  · obtain ⟨k, code, hs, hk⟩ := h.own
    obtain ⟨k', old, new, hs', ht, _⟩ := hst.draft
    rw [hs] at hs'
    cases hs'
    exact ⟨k, new, ht, hk⟩
  · exact Nat.lt_of_lt_of_le (h.body b hb) hst.beside.size_le

theorem site {g : Frame} (h : Seated f s) (hsite : g.site = f.site) : Seated g s := by
  have hblock : g.block = f.block := (congrArg Frame.block hsite : g.site.block = f.site.block)
  have hscope : g.scope = f.scope := (congrArg Frame.scope hsite : g.site.scope = f.site.scope)
  refine ⟨h.notWatching, ?_, ?_⟩
  · unfold Frame.leave
    rw [hblock, hscope]
    exact h.own
  · rw [hscope]
    exact h.body

end Seated

/-! ## Steps -/

namespace Lowering

variable {α : Type} {f : Frame} {s t : State}

/-- What a run that went through wrote. -/
theorem Composed.wrote {P : Instruction → Prop} {m : Lower α} {a : α}
    (hm : Composed false False P m) (hP : ¬ ∀ i, P i) (hrun : m f s = .ok a t) :
    Wrote P f.block s.session t.session := by
  have hwrote := (hm f s False.elim).wrote hP
  rw [hrun] at hwrote
  exact hwrote

theorem not_all_isPlain : ¬ ∀ i : Instruction, i.IsPlain :=
  fun h => absurd (h (.bare .ret)).1 (by decide)

theorem aside_of_composed {m : Lower α} {a : α} (hm : Composed false False (fun _ => False) m)
    (hrun : m f s = .ok a t) : Aside s.session t.session :=
  .ofWrote (hm.wrote (fun h => h (.bare .ret)) hrun)

theorem laid_of_plain {m : Lower α} {a : α} (hm : Composed false False Instruction.IsPlain m)
    (hs : Seated f s.session) (hrun : m f s = .ok a t) :
    Laid f.block f.leave s.session t.session [] := by
  obtain ⟨l, hl, hw⟩ := hm.wrote not_all_isPlain hrun
  exact .ofWrites hs.notWatching hs.inside hw fun i hi => (hl i hi).lawful _ _

theorem emitWith_written {i : Instruction} {span : Span} {debug : Option DebugRecord} {p : Nat}
    (hs : Seated f s.session) (hrun : emitWith i span debug f s = .ok p t) :
    p = (s.session.stream f.block).size ∧
      Writes f.block #[{ i with debug }] s.session t.session := by
  have hw := writes_emitWith i span debug hs.canEmit
  rw [hrun] at hw
  rw [run_emitWith i span debug f s hs.canEmit] at hrun
  cases hrun
  exact ⟨rfl, hw⟩

theorem emitStepping_written {i : Instruction} {span : Span} {steps : List (Option Nat)} {p : Nat}
    (hs : Seated f s.session) (hrun : emitStepping i span steps f s = .ok p t) :
    p = (s.session.stream f.block).size ∧
      ∃ debug, Writes f.block #[{ i with debug }] s.session t.session := by
  simp only [emitStepping, run_bind, run_pc f s hs.canEmit, run_getSession] at hrun
  obtain ⟨hp, hw⟩ := emitWith_written hs hrun
  exact ⟨hp, _, hw⟩

theorem emitJz_laid {r : Register} {span : Span} {p : Nat} (hs : Seated f s.session)
    (hrun : emitJz (.register r) span f s = .ok p t) :
    Laid f.block f.leave s.session t.session [p] := by
  obtain ⟨rfl, debug, hw⟩ := emitStepping_written hs hrun
  exact .ofHole hs.notWatching hs.inside hw (Instruction.waits_jz _ _ _ _)

theorem emitHole_laid {span : Span} {p : Nat} (hs : Seated f s.session)
    (hrun : emitJmp none span f s = .ok p t) :
    Laid f.block f.leave s.session t.session [p] := by
  obtain ⟨rfl, debug, hw⟩ := emitStepping_written hs hrun
  exact .ofHole hs.notWatching hs.inside hw (Instruction.waits_jmp _ _ _)

theorem emitJmp_laid {target : Nat} {span : Span} {p : Nat} (hs : Seated f s.session)
    (htarget : target ≤ (s.session.stream f.block).size)
    (hrun : emitJmp (some target) span f s = .ok p t) :
    Laid f.block f.leave s.session t.session [] := by
  obtain ⟨rfl, debug, hw⟩ := emitStepping_written hs hrun
  refine .ofWrites hs.notWatching hs.inside hw fun i hi => ?_
  rw [Array.mem_singleton.mp hi]
  refine ⟨fun hop => ?_, fun l hl => ?_⟩
  · rcases hop with hop | hop | hop <;> cases hop
  · exact ⟨target, by simpa [Instruction.operands, Instruction.unary] using hl, by omega⟩

theorem emitCjmp_laid {r : Register} {span : Span} {p : Nat} (hs : Seated f s.session)
    (hrun : emitCjmp (.register r) ((s.session.stream f.block).size + 1) span f s = .ok p t) :
    Laid f.block f.leave s.session t.session [p] := by
  simp only [emitCjmp, run_bind, run_getSession, run_ite] at hrun
  have hwaits (debug : Option DebugRecord) := Instruction.waits_cjmp f.leave
    (Nat.lt_succ_self ((s.session.stream f.block).size + 1)) r debug
  split at hrun
  · obtain ⟨rfl, hw⟩ := emitWith_written hs hrun
    exact .ofHole hs.notWatching hs.inside hw (hwaits _)
  · obtain ⟨rfl, debug, hw⟩ := emitStepping_written hs hrun
    exact .ofHole hs.notWatching hs.inside hw (hwaits _)

theorem pc_seated {p : Nat} (hs : Seated f s.session) (hrun : pc f s = .ok p t) :
    p = (s.session.stream f.block).size ∧ t = s := by
  rw [run_pc f s hs.canEmit] at hrun
  cases hrun
  exact ⟨rfl, rfl⟩

theorem patch_laid {u : Session} {p target : Nat} {op : OpCode} {holes : List Nat}
    (h : Laid f.block op u s.session (p :: holes)) (hw : s.session.isWatching = false)
    (htarget : target ≤ (s.session.stream f.block).size)
    (hrun : patch p target f s = .ok () t) :
    Laid f.block op u t.session holes ∧
      (t.session.stream f.block).size = (s.session.stream f.block).size := by
  rcases patch_cases p target f s with ⟨i, j, hi, hj, hp⟩ | ⟨d, hp⟩
  · rw [hp] at hrun
    cases hrun
    have hinside := Nat.lt_of_lt_of_le h.inside h.beside.size_le
    refine ⟨h.fill hw hi hj htarget, ?_⟩
    rw [Session.stream_replaceCode hw hinside p j]
    exact Array.size_setIfInBounds
  · rw [hp] at hrun
    cases hrun

theorem patchAll_laid {u : Session} {pending : List Nat} {target : Nat} {op : OpCode}
    {holes : List Nat} (h : Laid f.block op u s.session (pending ++ holes))
    (hw : s.session.isWatching = false) (htarget : target ≤ (s.session.stream f.block).size)
    (hrun : patchAll pending target f s = .ok () t) :
    Laid f.block op u t.session holes ∧
      (t.session.stream f.block).size = (s.session.stream f.block).size := by
  induction pending generalizing s with
  | nil =>
    cases hrun
    exact ⟨h, rfl⟩
  | cons p rest ih =>
    obtain ⟨⟨⟩, v, hv, hrest⟩ := bind_eq_ok.mp hrun
    obtain ⟨hfirst, hsize⟩ := patch_laid h hw htarget hv
    have hwatch : v.session.isWatching = false := by
      rw [hfirst.beside.isWatching, ← h.beside.isWatching, hw]
    obtain ⟨hall, hsize'⟩ := ih hfirst hwatch (by omega) hrest
    exact ⟨hall, hsize'.trans hsize⟩

end Lowering

end Diglot
