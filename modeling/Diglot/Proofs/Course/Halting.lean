import Diglot.Proofs.Course.Statement

/-! # Halts and diagnostics agree

Whatever session a call starts from, it halts exactly if it records an issue at which compilation
halts, and then that diagnostic is the only one of its kind and the last one of all
(`halts_iff_recorded`). A run records diagnostics only where its course reports or halts, so the proof
is an induction on the course, which every statement has (`Course.recorded`).
-/

set_option autoImplicit false

namespace Diglot

open Lowering

namespace Session

/-- Diagnostics were added, and compilation halts at none of them. -/
def Remarks (s t : Session) : Prop :=
  ∃ l : List Diagnostic, t.diagnostics.toList = s.diagnostics.toList ++ l ∧
    ∀ d ∈ l, d.issue.isHalting = false

namespace Remarks

variable {s t u : Session}

theorem ofEq (h : t.diagnostics = s.diagnostics) : s.Remarks t := by
  refine ⟨[], ?_, fun _ hd => absurd hd List.not_mem_nil⟩
  rw [h, List.append_nil]

theorem trans (h : s.Remarks t) (h' : t.Remarks u) : s.Remarks u := by
  obtain ⟨l, hl, hnot⟩ := h
  obtain ⟨l', hl', hnot'⟩ := h'
  refine ⟨l ++ l', by rw [hl', hl, List.append_assoc], fun d hd => ?_⟩
  rcases List.mem_append.mp hd with hd | hd
  · exact hnot d hd
  · exact hnot' d hd

end Remarks

theorem diagnostics_modifyProcedure (s : Session) (r : ProcRef) (g : Procedure → Procedure) :
    (s.modifyProcedure r g).diagnostics = s.diagnostics := by
  unfold modifyProcedure
  split <;> rfl

theorem diagnostics_openProcedure (s : Session) (f : Frame) (p : Procedure) (message : String) :
    (s.openProcedure f p message).diagnostics = s.diagnostics := by
  change (modifyProcedure _ _ _).diagnostics = _
  rw [diagnostics_modifyProcedure]
  change (s.register f.scope p).diagnostics = _
  unfold register
  split <;> rfl

end Session

namespace Lowering

variable {D : Prop} {P : Instruction → Prop} {α β : Type} {f : Frame} {s : State}

/-- The run recorded remarks only or, if it halted, remarks and then what it halted at. -/
def Recorded (s : Session) : EStateM.Result Stop State α → Prop
  | .error (.halt d) t =>
    ∃ u : Session, s.Remarks u ∧ t.session.diagnostics = u.diagnostics.push d ∧
      d.issue.isHalting = true
  | r => s.Remarks (final r)

theorem Recorded.after {r : EStateM.Result Stop State α} {t u : Session} (h : t.Remarks u)
    (hr : Recorded u r) : Recorded t r := by
  rcases r with ⟨a, v⟩ | ⟨_ | _, v⟩
  · exact h.trans hr
  · obtain ⟨x, hx, hrest⟩ := hr
    exact ⟨x, h.trans hx, hrest⟩
  · exact h.trans hr

theorem Recorded.bind {m : Lower α} {k : α → Lower β} (hm : Recorded s.session (m f s))
    (hk : ∀ a t, m f s = .ok a t → Recorded t.session (k a f t)) :
    Recorded s.session ((m >>= k) f s) := by
  rw [run_bind]
  revert hm hk
  rcases m f s with ⟨a, t⟩ | ⟨_ | _, t⟩
  · exact fun hm hk => .after hm (hk a t rfl)
  · exact fun hm _ => hm
  · exact fun hm _ => hm

theorem recorded_allocate (d : Declaration) (f : Frame) (s : State) :
    Recorded s.session (allocate d f s) := by
  have hsilent := (silent_allocate d f s).diagnostics
  revert hsilent
  rcases allocate_cases d f s with ⟨_, r, hrun⟩ | ⟨e, t, hrun⟩
  · rw [hrun]
    exact .ofEq
  · rw [hrun]
    exact .ofEq

theorem recorded_declareParams (params : List Argument) (f : Frame) (s : State) :
    Recorded s.session (declareParams params f s) := by
  induction params generalizing s with
  | nil => exact .ofEq rfl
  | cons p rest ih =>
    exact .bind (.bind (recorded_allocate _ f s) fun _ _ _ => .ofEq rfl) fun _ t _ => ih t

theorem recorded_lowerInner {dialect : Dialect} {body : List Node}
    (hcode : (s.session.block? f.block).isSome →
      Recorded (s.session.openBlock f dialect)
        (lowerCode body (unitFrame s.session.blocks.size f.scope dialect body)
          { session := s.session.openBlock f dialect })) :
    Recorded s.session (lowerInner dialect body f s) := by
  cases hb : s.session.block? f.block with
  | none =>
    rw [lowerInner_error dialect body hb]
    exact .ofEq rfl
  | some b =>
    have hsome : (s.session.block? f.block).isSome := by rw [hb]; rfl
    have hinner : Recorded s.session (lowerCode body
        (unitFrame s.session.blocks.size f.scope dialect body)
        { session := s.session.openBlock f dialect }) := .after (.ofEq rfl) (hcode hsome)
    rw [lowerInner_run dialect body hsome]
    revert hinner
    rcases lowerCode body _ _ with ⟨_, t⟩ | ⟨_ | _, t⟩ <;> exact id

theorem recorded_lowerBody {fn : Function} {p : Procedure}
    (hcode : (s.session.block? f.block).isSome →
      (∀ cls, Session.ownerClass f.scope = some cls → (s.session.classes.get? cls).isSome) →
      Recorded (s.session.openProcedure f p (bodyMessage fn.name s.session.blocks.size))
        ((do
          declareParams p.args
          lowerCode fn.body) (bodyUnit f s.session fn.body)
          { session := s.session.openProcedure f p (bodyMessage fn.name s.session.blocks.size) })) :
    Recorded s.session (lowerBody statement fn p f s) := by
  rcases lowerBody_cases fn p f s with ⟨hblock, hcls, hrun⟩ | ⟨_, d, t, hrun, hsame⟩
  · have hopen := s.session.diagnostics_openProcedure f p
      (bodyMessage fn.name s.session.blocks.size)
    have hinner := Recorded.after (.ofEq hopen) (hcode hblock hcls)
    rw [hrun]
    revert hinner
    generalize (declareParams p.args >>= fun _ => lowerCode fn.body) _ _ = r
    rcases r with ⟨_, t⟩ | ⟨_ | _, t⟩
    · intro hinner
      refine .after (u := t.session.setLocals s.session.counters.locals) hinner ?_
      simp only [run_bind, run_getBlock, run_modifySession]
      cases Session.block? _ s.session.blocks.size with
      | none => exact .ofEq rfl
      | some b => exact .ofEq (Session.diagnostics_modifyProcedure _ _ _)
    · exact id
    · exact id
  · rw [hrun]
    exact .ofEq hsame

/-- What a run with a course records. -/
theorem Course.recorded {m : Lower α} (h : Course D P f s m) : Recorded s.session (m f s) := by
  induction h with
  | pure a => exact .ofEq rfl
  | bind _ _ ihm ihk => exact .bind ihm ihk
  | read => exact .ofEq rfl
  | get => exact .ofEq rfl
  | modify hs _ => exact .ofEq (congrArg Session.diagnostics hs)
  | defect d _ => exact .ofEq rfl
  | withReader _ _ ih => exact ih
  | note level topic message => exact .ofEq rfl
  | @report f s issue message span hissue =>
    refine ⟨[s.session.diagnostic issue message span], Array.toList_push, fun d hd => ?_⟩
    rw [List.mem_singleton.mp hd]
    exact hissue
  | @halt α f s issue message span hissue => exact ⟨s.session, .ofEq rfl, rfl, hissue⟩
  | @emitWith f s i span debug _ =>
    by_cases hcan : s.session.CanEmit f.block
    · rw [run_emitWith i span debug f s hcan]
      refine .ofEq ?_
      unfold final Session.emit Session.noteEmission
      dsimp only
      split <;> split <;> rfl
    · rw [run_emitWith_error i span debug f s hcan]
      exact .ofEq rfl
  | @patch f s pending target _ _ =>
    rcases patch_cases pending target f s with ⟨i, j, _, _, hrun⟩ | ⟨d, hrun⟩
    · rw [hrun]
      refine .ofEq ?_
      unfold final Session.replaceCode
      dsimp only
      split <;> rfl
    · rw [hrun]
      exact .ofEq rfl
  | allocate d => exact recorded_allocate d _ _
  | record hq => exact .ofEq hq.silent.diagnostics
  | block dialect body _ _ ih => exact recorded_lowerInner ih
  | procedure fn p _ _ _ ih =>
    refine recorded_lowerBody fun hblock hcls => ?_
    exact .bind (recorded_declareParams p.args _ _) fun _ t hrun => ih hblock hcls t hrun
  | addClass => exact .ofEq rfl
  | inClass _ _ _ _ _ ih => exact ih

end Lowering

/-! ## Calls -/

namespace Session

/-- The diagnostics of a session that an earlier one did not have. -/
def recordedSince (t s : Session) : List Diagnostic := t.diagnostics.toList.drop s.diagnostics.size

/-- What a call returned and what it recorded tell the same. -/
structure Agrees {α : Type} (s : Session) (result : Except CompileError α) (t : Session) : Prop where
  kept : s.diagnostics.toList <+: t.diagnostics.toList
  halts : (∃ d, result = .error (.halt d)) ↔ ∃ d ∈ t.recordedSince s, d.issue.isHalting = true
  last : ∀ d, result = .error (.halt d) →
    (t.recordedSince s).filter (fun e => e.issue.isHalting) = [d] ∧ t.diagnostics.back? = some d

theorem recordedSince_of_append {s t : Session} {l : List Diagnostic}
    (h : t.diagnostics.toList = s.diagnostics.toList ++ l) : t.recordedSince s = l := by
  unfold recordedSince
  rw [h, ← Array.length_toList, List.drop_left]

theorem Agrees.ofRemarks {α : Type} {s t : Session} {result : Except CompileError α}
    (h : s.Remarks t) (hnot : ∀ d, result ≠ .error (.halt d)) : Agrees s result t := by
  obtain ⟨l, hl, hremarks⟩ := h
  refine ⟨⟨l, hl.symm⟩, ⟨fun ⟨d, hd⟩ => absurd hd (hnot d), fun ⟨d, hmem, hd⟩ => ?_⟩,
    fun d hd => absurd hd (hnot d)⟩
  rw [recordedSince_of_append hl] at hmem
  rw [hremarks d hmem] at hd
  cases hd

theorem Agrees.ofHalt {α : Type} {s t u : Session} {d : Diagnostic} (h : s.Remarks u)
    (ht : t.diagnostics = u.diagnostics.push d) (hd : d.issue.isHalting = true) :
    Agrees s (.error (.halt d) : Except CompileError α) t := by
  obtain ⟨l, hl, hremarks⟩ := h
  have hall : t.diagnostics.toList = s.diagnostics.toList ++ (l ++ [d]) := by
    rw [ht, Array.toList_push, hl, List.append_assoc]
  have hrecorded := recordedSince_of_append hall
  refine ⟨⟨_, hall.symm⟩, ⟨fun _ => ⟨d, ?_, hd⟩, fun _ => ⟨d, rfl⟩⟩, fun e he => ?_⟩
  · rw [hrecorded]
    exact List.mem_append_right l (List.mem_singleton_self d)
  · cases he
    have hnone : l.filter (fun e => e.issue.isHalting) = [] :=
      List.filter_eq_nil_iff.mpr fun e he => by rw [hremarks e he]; exact Bool.false_ne_true
    refine ⟨?_, ?_⟩
    · rw [hrecorded, List.filter_append, hnone, List.nil_append, List.filter_cons, if_pos hd]
      rfl
    · rw [ht]
      exact Array.back?_push

/-- A call halts exactly if it records an issue at which compilation halts. That diagnostic is then the
only one of its kind and the last of all, and earlier diagnostics stay as they are. -/
theorem halts_iff_recorded (s : Session) :
    (∀ unit dialect, Agrees s (s.compile unit dialect).1 (s.compile unit dialect).2) ∧
      ∀ id node, Agrees s (s.watchExpression id node).1 (s.watchExpression id node).2 := by
  refine ⟨fun unit dialect => ?_, fun id node => ?_⟩
  · have hcourse : Course False Anything (unitFrame (s.unitStart dialect).1 .global dialect unit)
        { session := (s.unitStart dialect).2 } (lowerCode unit) :=
      .lowerCode (fun n _ => steady n) False.elim False.elim
    have hstart : (s.unitStart dialect).2.diagnostics = s.diagnostics := by
      change (openUnit _ dialect).2.diagnostics = _
      unfold openUnit
      split
      · split <;> rfl
      · rfl
    have hrecorded := Recorded.after (.ofEq hstart) hcourse.recorded
    rw [compile_eq]
    revert hrecorded
    rcases lowerCode unit _ _ with ⟨_, t⟩ | ⟨_ | _, t⟩
    · exact fun h => .ofRemarks h nofun
    · exact fun ⟨_, hv, ht, hd⟩ => .ofHalt hv ht hd
    · exact fun h => .ofRemarks h nofun
  · cases hb : s.block? id with
    | none =>
      unfold watchExpression
      rw [hb]
      exact .ofRemarks (.ofEq rfl) nofun
    | some b =>
      have hcourse := Composed.lowerWatch (w := true) (D := False) (P := Anything) node
        (fun _ _ => trivial) (s.watchSite id b) { session := { s with isWatching := true } } False.elim
      have hrecorded := hcourse.recorded
      rw [watchExpression_eq hb]
      revert hrecorded
      rcases lowerWatch node _ _ with ⟨_, t⟩ | ⟨_ | _, t⟩
      · exact fun h => .ofRemarks h nofun
      · exact fun ⟨_, hv, ht, hd⟩ => .ofHalt hv ht hd
      · exact fun h => .ofRemarks h nofun

end Session

end Diglot
