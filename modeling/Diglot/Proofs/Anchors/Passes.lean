import Diglot.Proofs.Chains.Silent

/-! # Code and warnings of a step

`Passes f s t code warnings` says what lowering in frame `f` did between two states: it put `code` behind
the stream of its block, recorded `warnings`, and left all other code alone; every name still stands for
what it stood for.
-/

set_option autoImplicit false

namespace Diglot

/-- The instruction without its debug record. -/
def Instruction.unmarked (i : Instruction) : Instruction := { i with debug := none }

namespace Lowering

/-- Code was put behind that of the frame, and warnings were recorded. -/
structure Passes (f : Frame) (s t : State) (code : List Instruction) (warnings : Diagnostics) : Prop where
  code : ∃ added, (t.session.stream f.block).toList = (s.session.stream f.block).toList ++ added ∧
    added.map Instruction.unmarked = code
  others : ∀ id, id ≠ f.block → t.session.block? id = s.session.block? id
  warnings : t.session.diagnostics = s.session.diagnostics ++ warnings
  names : s.session.SameNames t.session
  options : t.session.options = s.session.options
  file : t.session.file = s.session.file
  isSealed : t.node.isSealed = s.node.isSealed

variable {α β : Type} {f g : Frame} {s t u : State} {code rest : List Instruction}
  {warnings more : Diagnostics}

namespace Passes

theorem refl (f : Frame) (s : State) : Passes f s s [] #[] :=
  ⟨⟨[], by simp, rfl⟩, fun _ _ => rfl, by simp, .refl _, rfl, rfl, rfl⟩

theorem trans (h : Passes f s t code warnings) (h' : Passes f t u rest more) :
    Passes f s u (code ++ rest) (warnings ++ more) := by
  obtain ⟨added, hadded, rfl⟩ := h.code
  obtain ⟨added', hadded', rfl⟩ := h'.code
  refine ⟨⟨added ++ added', ?_, List.map_append⟩, fun id hid => ?_, ?_, h.names.trans h'.names,
    h'.options.trans h.options, h'.file.trans h.file, h'.isSealed.trans h.isSealed⟩
  · rw [hadded', hadded, List.append_assoc]
  · rw [h'.others id hid, h.others id hid]
  · rw [h'.warnings, h.warnings, Array.append_assoc]

/-- Only the block of the frame matters. -/
theorem frame (h : Passes g s t code warnings) (hg : g.block = f.block) :
    Passes f s t code warnings :=
  ⟨hg ▸ h.code, fun id hid => h.others id (hg ▸ hid), h.warnings, h.names, h.options, h.file,
    h.isSealed⟩

/-- A step that leaves the session alone but for its log. -/
theorem quiet {log : Array LogRecord} (hs : t.session = { s.session with log })
    (hn : t.node.isSealed = s.node.isSealed) : Passes f s t [] #[] := by
  refine ⟨⟨[], ?_, rfl⟩, fun id _ => ?_, ?_, ?_, ?_, ?_, hn⟩
  · rw [hs, List.append_nil]
    rfl
  · rw [hs]
    rfl
  · rw [hs, Array.append_empty]
  · rw [hs]
    exact ⟨rfl, rfl, rfl, rfl, rfl, rfl⟩
  · rw [hs]
  · rw [hs]

theorem suffix (h : Passes f s t code warnings) :
    code <:+ (t.session.stream f.block).toList.map Instruction.unmarked := by
  obtain ⟨added, hadded, rfl⟩ := h.code
  rw [hadded, List.map_append]
  exact List.suffix_append ..

theorem canEmit (h : Passes f s t code warnings) (hs : s.session.CanEmit f.block) :
    t.session.CanEmit f.block := by
  unfold Session.CanEmit at hs ⊢
  rwa [h.names.isWatching, h.names.block?_isSome]

theorem report (f : Frame) (s : State) (d : Diagnostic) :
    Passes f s { s with session := s.session.report d } [] #[d] :=
  ⟨⟨[], (List.append_nil _).symm, rfl⟩, fun _ _ => rfl, (Array.push_eq_append ..),
    ⟨rfl, rfl, rfl, rfl, rfl, rfl⟩, rfl, rfl, rfl⟩

end Passes

theorem Frame.LooksOut.passes (h : f.LooksOut s.session) (hp : Passes f s t code warnings) :
    f.LooksOut t.session := h.congr hp.names

/-- An instruction goes behind the others. -/
theorem passes_emits {i : Instruction} {span : Span} {m : Lower Nat} (h : Mild.Emits i span m)
    (hs : s.session.CanEmit f.block) :
    ∃ a t, m f s = .ok a t ∧ Passes f s t [i.unmarked] #[] := by
  obtain ⟨debug, hm⟩ := h f s
  let j : Instruction := { i with debug }
  let noted := s.session.noteEmission f (s.session.stream f.block).size j
  have hcan : noted.CanEmit f.block := (Session.canEmit_noteEmission f _ _).mpr hs
  obtain ⟨log, hlog⟩ := s.session.noteEmission_eq f (s.session.stream f.block).size j
  obtain ⟨debugMap, blocks, watch, hemit⟩ := noted.emit_eq f.block j span
  refine ⟨_, _, hm.trans (run_emitWith i span debug f s hs), ⟨[j], ?_, rfl⟩, fun id hid => ?_, ?_, ?_, ?_, ?_,
    rfl⟩
  · change ((noted.emit f.block j span).stream f.block).toList = _
    rw [Session.stream_emit hcan, Array.toList_push, Session.stream_noteEmission]
  · change (noted.emit f.block j span).block? id = _
    have hnoted : noted.block? id = s.session.block? id := by
      change (Session.noteEmission ..).block? id = _
      rw [hlog]
      rfl
    unfold Session.emit
    split
    · exact hnoted
    · rw [Session.block?_modifyBlock, if_neg fun heq => hid heq.symm]
      exact hnoted
  · change (noted.emit f.block j span).diagnostics = _
    rw [hemit, Array.append_empty]
    change (Session.noteEmission ..).diagnostics = _
    rw [hlog]
  · exact (Session.sameNames_noteEmission ..).trans (Session.sameNames_emit ..)
  · change (noted.emit f.block j span).options = _
    rw [hemit]
    change (Session.noteEmission ..).options = _
    rw [hlog]
  · change (noted.emit f.block j span).file = _
    rw [hemit]
    change (Session.noteEmission ..).file = _
    rw [hlog]

/-! ## Emitting parts of a chain -/

section
variable (h : s.session.CanEmit f.block)
include h

theorem passes_emitPush (operand : Operand) (dims : Nat) (span : Span) :
    ∃ a t, emitPush operand dims span f s = .ok a t ∧
      Passes f s t [.ternary .push operand (.cls f.scope.classScope) (.arrayDim dims)] #[] :=
  passes_emits (m := emit (.ternary .push operand (.cls f.scope.classScope) (.arrayDim dims)) span)
    (Mild.emits_emitStepping _ span []) h

theorem passes_emitPushm (operand : Operand) (cls : Option Nat) (span : Span) :
    ∃ a t, emitPushm operand cls span f s = .ok a t ∧
      Passes f s t [.ternary .pushm operand (.cls cls) (.block f.block)] #[] :=
  passes_emits (m := emit (.ternary .pushm operand (.cls cls) (.block f.block)) span)
    (Mild.emits_emitStepping _ span []) h

theorem passes_emitPushlist (depth : Nat) (span : Span) :
    ∃ a t, emitPushlist depth false span f s = .ok a t ∧
      Passes f s t [.ternary .pushlist (.int (Operand.clamp depth)) (.cls f.scope.classScope)
        (.block f.block)] #[] :=
  passes_emits (m := emitSilent (.ternary .pushlist (.int (Operand.clamp depth)) (.cls f.scope.classScope)
    (.block f.block)) span) (Mild.emits_emitWith _ span none) h

theorem passes_emitPushIndex (operand : Operand) :
    ∃ a t, emitPushIndex operand f s = .ok a t ∧ Passes f s t [.unary .pushindex operand] #[] :=
  passes_emits (Mild.emits_emitWith (.unary .pushindex operand) .nil none) h

/-- The operand of a store that tells in which class the code stands. -/
theorem passes_emitPoplist (depth : Nat) (start : Option Nat) (span : Span) :
    ∃ a t x, emitPoplist depth start span f s = .ok a t ∧
      Passes f s t [.ternary .poplist (.int (Operand.clamp depth)) (.int x) (.block f.block)] #[] := by
  have hemits (x : Int) := passes_emits (Mild.emits_emitStepping
    (.ternary .poplist (.int (Operand.clamp depth)) (.int x) (.block f.block)) span []) h
  cases start with
  | none =>
    obtain ⟨a, t, hrun, hp⟩ := hemits (-1)
    exact ⟨a, t, _, hrun, hp⟩
  | some c =>
    obtain ⟨a, t, hrun, hp⟩ := hemits (if (c : Int) ≤ Numeral.maxInt then c else -1)
    exact ⟨a, t, _, hrun, hp⟩

/-- The code of guides. -/
def guideCode (cls : Option Nat) (guides : List Guide) : List Instruction :=
  guides.map (fun g => .ternary .push (.int g.value) (.cls cls) (.arrayDim 0)) ++
    [.unary .pushindex (.guideCount guides.length)]

theorem passes_emitGuides (guides : List Guide) :
    ∃ t, emitGuides guides f s = .ok () t ∧
      Passes f s t (guideCode f.scope.classScope guides) #[] := by
  let push (g : Guide) : Lower Unit := do
    let _ ← emitPush (.int g.value) 0 .nil
  have hpushes (l : List Guide) (u : State) (hu : u.session.CanEmit f.block) :
      ∃ t, l.forM push f u = .ok () t ∧ Passes f u t
        (l.map fun g => .ternary .push (.int g.value) (.cls f.scope.classScope) (.arrayDim 0)) #[] := by
    induction l generalizing u with
    | nil => exact ⟨u, rfl, .refl f u⟩
    | cons g rest ih =>
      obtain ⟨_, v, hpush, hp⟩ := passes_emitPush hu (.int g.value) 0 .nil
      obtain ⟨t, hrest, hp'⟩ := ih v (hp.canEmit hu)
      refine ⟨t, ?_, hp.trans hp'⟩
      change (push g >>= fun _ => rest.forM push) f u = _
      simp only [push, run_bind, hpush, run_pure]
      exact hrest
  obtain ⟨u, hguides, hp⟩ := hpushes guides s h
  obtain ⟨_, t, hindex, hp'⟩ := passes_emitPushIndex (hp.canEmit h) (.guideCount guides.length)
  refine ⟨t, ?_, hp.trans hp'⟩
  change (guides.forM push >>= fun _ => emitPushIndex _ >>= fun _ => pure ()) f s = _
  simp only [run_bind, hguides, hindex, run_pure]

end

end Lowering

end Diglot
