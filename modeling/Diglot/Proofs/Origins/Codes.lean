import Diglot.Proofs.Closed.Session
import Diglot.Proofs.Mild.Basic
import Diglot.Proofs.Origins.Statement

/-! # Code that is only added to

Code grows at its end, and jumps in it are patched. But for the targets of jumps and the debug records, code
begins with all code that stood in its place before (`Begins`).

* `Session.HasCode`: the code of a block, or that of the watch expressions.
* `Session.HasCode.before_writes`, `before_replaceCode`, `before_opening`: where the code of a session comes
  from, by how the session was changed.
-/

set_option autoImplicit false

namespace Diglot

open Lowering

namespace Instruction

variable {i j : Instruction} {target : Nat}

/-- The instruction without what patching changes: the target of a jump, and the debug record. -/
def blank (i : Instruction) : Instruction := { i.retarget (.label none) with debug := none }

theorem blank_patch (h : i.patch target = .ok j) : j.blank = i.blank := by
  unfold Instruction.patch at h
  split at h
  · cases h
  split at h
  · cases h
    obtain ⟨opcode, _, _, _, _⟩ := i
    cases opcode <;> rfl
  · cases h
  · cases h

/-- Jumps refer to nothing but places of their own code. -/
theorem isStandalone_of_isJump (h : i.opcode.isJump = true) : i.IsStandalone := by
  refine isStandalone_of_opcode ?_ ?_ ?_ ?_
  all_goals
    intro hop
    rw [hop] at h
    cases h

theorem isStandalone_of_patch (h : i.patch target = .ok j) : j.IsStandalone :=
  isStandalone_of_isJump ((Flow.patch_eq h).1 ▸ isJump_of_patch h)

end Instruction

/-! ## Beginnings of code -/

/-- The code begins with the other one, but for targets of jumps and debug records. -/
def Begins (first code : Array Instruction) : Prop :=
  first.toList.map Instruction.blank <+: code.toList.map Instruction.blank

namespace Begins

variable {first code last : Array Instruction}

theorem refl (code : Array Instruction) : Begins code code := List.prefix_refl _

theorem trans (h : Begins first code) (h' : Begins code last) : Begins first last :=
  List.IsPrefix.trans h h'

theorem append (code l : Array Instruction) : Begins code (code ++ l) := by
  unfold Begins
  rw [Array.toList_append, List.map_append]
  exact List.prefix_append _ _

theorem patched {pending target : Nat} {i j : Instruction} (hi : code[pending]? = some i)
    (hj : i.patch target = .ok j) : Begins code (code.setIfInBounds pending j) := by
  have hsame : (code.setIfInBounds pending j).toList.map Instruction.blank =
      code.toList.map Instruction.blank := by
    rw [Array.toList_setIfInBounds, List.map_set, Instruction.blank_patch hj]
    refine List.ext_getElem? fun n => ?_
    rw [List.getElem?_set]
    split
    · next heq =>
      subst heq
      split
      · rw [List.getElem?_map, Array.getElem?_toList, hi]
        rfl
      · next hlt => exact (List.getElem?_eq_none (Nat.le_of_not_lt hlt)).symm
    · rfl
  exact ⟨[], by rw [List.append_nil, hsame]⟩

end Begins

/-! ## The code of a session -/

namespace Session

variable {s t : Session} {id : Nat} {code : Array Instruction}

/-- The code of a block, or that of the watch expressions. -/
inductive HasCode (s : Session) : Array Instruction → Prop where
  | block {id : Nat} {k : BlockKind} {code : Array Instruction} : s.text id = some (k, code) →
      HasCode s code
  | watch : HasCode s s.watch

namespace HasCode

/-- What is written goes behind the code of the own block or, while watching, behind the watch code. -/
theorem before_writes {l : Array Instruction} (hw : Writes id l s t) (h : t.HasCode code) :
    s.HasCode code ∨ s.HasCode (s.stream id) ∧ code = s.stream id ++ l := by
  cases hwatching : s.isWatching with
  | true =>
    have hstream : s.stream id = s.watch := by simp [stream, hwatching]
    rw [hstream]
    cases h with
    | @block j k code hj =>
      have hsame : t.text j = s.text j := by
        by_cases heq : j = id
        · rw [heq, hw.own, hwatching, if_pos rfl]
        · exact hw.others j heq
      exact .inl (.block (hsame ▸ hj))
    | watch =>
      refine .inr ⟨.watch, ?_⟩
      rw [hw.watch, hwatching, if_pos rfl]
  | false =>
    cases h with
    | @block j k code hj =>
      by_cases heq : j = id
      · subst heq
        rw [hw.own, hwatching] at hj
        obtain ⟨⟨k', old⟩, hold, heq⟩ := Option.map_eq_some_iff.mp hj
        cases heq
        rw [stream_of_text hwatching hold]
        exact .inr ⟨.block hold, rfl⟩
      · exact .inl (.block (hw.others j heq ▸ hj))
    | watch =>
      rw [hw.watch, hwatching]
      exact .inl .watch

/-- Patching changes the code of the own block or, while watching, the watch code. -/
theorem before_replaceCode {block pending : Nat} {j : Instruction}
    (h : (s.replaceCode block pending j).HasCode code) :
    s.HasCode code ∨
      s.HasCode (s.stream block) ∧ code = (s.stream block).setIfInBounds pending j := by
  cases hw : s.isWatching with
  | true =>
    have hstream : s.stream block = s.watch := by simp [stream, hw]
    have hreplace : s.replaceCode block pending j =
        { s with watch := s.watch.setIfInBounds pending j } := by simp [replaceCode, hw]
    rw [hreplace] at h
    rw [hstream]
    cases h with
    | block hj => exact .inl (.block hj)
    | watch => exact .inr ⟨.watch, rfl⟩
  | false =>
    have hreplace : s.replaceCode block pending j =
        s.modifyBlock block fun b => { b with code := b.code.setIfInBounds pending j } := by
      simp [replaceCode, hw]
    rw [hreplace] at h
    cases h with
    | @block id k code hid =>
      unfold text at hid
      rw [block?_modifyBlock] at hid
      split at hid
      · next heq =>
        subst heq
        obtain ⟨c, hc, heq⟩ := Option.map_eq_some_iff.mp hid
        obtain ⟨b, hb, rfl⟩ := Option.map_eq_some_iff.mp hc
        cases heq
        have hold : s.text block = some (b.kind, b.code) := by rw [text, hb, Option.map_some]
        rw [stream_of_text hw hold]
        exact .inr ⟨.block hold, rfl⟩
      · exact .inl (.block hid)
    | watch => exact .inl .watch

/-- Blocks that were added have no code yet. -/
theorem before_opening (h : t.HasCode code) (hwatch : t.watch = s.watch)
    (htext : ∀ id k code, t.text id = some (k, code) → code = #[] ∨ s.text id = some (k, code)) :
    code = #[] ∨ s.HasCode code := by
  cases h with
  | block hid => exact (htext _ _ _ hid).imp_right .block
  | watch => exact .inr (hwatch ▸ .watch)

end HasCode

theorem text_openBlock_cases (s : Session) (f : Frame) (dialect : Dialect) {id : Nat} {k : BlockKind}
    (h : (s.openBlock f dialect).text id = some (k, code)) :
    code = #[] ∨ s.text id = some (k, code) := by
  rw [text_openBlock] at h
  split at h
  · cases h
    exact .inl rfl
  · exact .inr h

theorem text_openProcedure_cases (s : Session) (f : Frame) (p : Procedure) (message : String) {id : Nat}
    {k : BlockKind} (h : (s.openProcedure f p message).text id = some (k, code)) :
    code = #[] ∨ s.text id = some (k, code) := by
  rw [text_openProcedure] at h
  split at h
  · cases h
    exact .inl rfl
  · exact .inr h

/-- What is written goes behind the stream of the own block. -/
theorem stream_writes {l : Array Instruction} (h : Writes id l s t) (hcan : s.CanEmit id) :
    t.stream id = s.stream id ++ l := by
  cases hw : s.isWatching with
  | true =>
    have hstream (u : Session) (hu : u.isWatching = true) : u.stream id = u.watch := by
      simp [stream, hu]
    rw [hstream t (h.isWatching.trans hw), hstream s hw, h.watch, hw, if_pos rfl]
  | false =>
    have hb : (s.block? id).isSome := hcan.resolve_left (by rw [hw]; exact Bool.false_ne_true)
    obtain ⟨b, hb⟩ := Option.isSome_iff_exists.mp hb
    have hs : s.text id = some (b.kind, b.code) := by rw [text, hb, Option.map_some]
    have ht := h.own
    rw [hw, if_neg Bool.false_ne_true, hs, Option.map_some] at ht
    rw [stream_of_text (h.isWatching.trans hw) ht, stream_of_text hw hs]

end Session

namespace Lowering

variable {f : Frame} {s : State}

/-- A step that emits one instruction writes it, with some debug record. -/
theorem Mild.Emits.writes {i : Instruction} {span : Span} {m : Lower Nat} (h : Mild.Emits i span m)
    (hcan : s.session.CanEmit f.block) :
    ∃ debug, Writes f.block #[{ i with debug }] s.session (final (m f s)) := by
  obtain ⟨debug, hrun⟩ := h f s
  rw [hrun]
  exact ⟨debug, writes_emitWith i span debug hcan⟩

/-- Nothing is written behind the call of a procedure. -/
theorem final_lowerKnownCall (call : Call) (c : Cursor) (r : ProcRef) :
    final (lowerKnownCall call c r f s) = final (emitCallTo .callr r c.depth call.span f s) := by
  unfold lowerKnownCall
  rw [run_bind]
  cases emitCallTo .callr r c.depth call.span f s with
  | error e t => rfl
  | ok _ t =>
    simp only [run_bind, run_getSession]
    cases t.session.procedure? r with
    | none => rfl
    | some p =>
      dsimp only
      split <;> rfl

/-- What precedes the call of a late-bound procedure, and tells its entry. -/
def enterLateCall (call : Call) (c : Cursor) : Lower Nat := do
  if c.depth = 0 || c.receiver?.isSome then
    warnFunctionNotFound call.name call.args.length call.span
  registerLateFunction call.name call.args.length

theorem lowerLateCall_eq (call : Call) (c : Cursor) :
    lowerLateCall call c = enterLateCall call c >>= fun i =>
      emitLateCall i c.depth call.span >>= fun _ => pure (.var, .ofMethod call.name) := by
  unfold lowerLateCall enterLateCall
  dsimp only
  split
  · rw [bind_assoc]
  · rfl

/-- The entry of a late-bound procedure has its name and the number of its arguments. -/
theorem enterLateCall_ok {call : Call} {c : Cursor} {i : Nat} {t : State}
    (h : enterLateCall call c f s = .ok i t) : ∃ e, t.session.lateFunctions[i]? = some e ∧
      e.name = call.name ∧ e.arity = call.args.length := by
  have hregister {u : State} (hu : registerLateFunction call.name call.args.length f u = .ok i t) :
      ∃ e, t.session.lateFunctions[i]? = some e ∧ e.name = call.name ∧ e.arity = call.args.length := by
    cases hu
    exact ⟨_, Array.getElem?_push_size, rfl, rfl⟩
  unfold enterLateCall at h
  split at h
  · obtain ⟨_, u, _, hu⟩ := bind_eq_ok.mp h
    exact hregister hu
  · exact hregister h

theorem Composed.enterLateCall {w : Bool} {D : Prop} {P : Instruction → Prop} (call : Call)
    (c : Cursor) : Composed w D P (enterLateCall call c) :=
  .onlyIf (.warnFunctionNotFound _ _ _) (.registerLateFunction _ _)

end Lowering

end Diglot
