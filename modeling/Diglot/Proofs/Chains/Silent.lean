import Diglot.Proofs.Chains.Beside

/-! # Silent steps

Two runs are compared by what they report, by the late-bound names that they register and by the calls that
they emit. A step is silent if it adds to none of these, declares nothing and always finishes
(`Silent`). What it emits, logs or records at the current node does not matter.
-/

set_option autoImplicit false

namespace Diglot

open Lowering

/-! ## What is compared -/

/-- The procedure that an instruction calls, as its operands show it. -/
def Instruction.callee? (i : Instruction) : Option (Option Operand × Option Operand) :=
  match i.opcode with
  | .call => some (i.op1, i.op2)
  | .callr => some (i.op1, i.op2)
  | _ => none

/-- What the code of a block calls, in order. -/
def Session.callees (s : Session) (block : Nat) : List (Option Operand × Option Operand) :=
  (s.stream block).toList.filterMap Instruction.callee?

/-- The dependency nodes of a block. -/
def Session.nodes (s : Session) (block : Nat) : Array GraphNode := ((s.block? block).map Block.graph).getD #[]

/-- The path without its subscripts. -/
def Path.bare (p : Path) : Path := p.map fun x => { x with dims := [] }

/-- The dependencies of the node without their subscripts. -/
def GraphNode.inputs (n : GraphNode) : List Path := n.dependencies.map Path.bare

/-- The node without subscripts. -/
def GraphNode.bare (n : GraphNode) : GraphNode := { n with dependencies := n.inputs, dims := [] }

namespace Session

theorem noteEmission_eq (s : Session) (f : Frame) (pc : Nat) (i : Instruction) :
    ∃ log, s.noteEmission f pc i = { s with log } := by
  unfold noteEmission
  split
  · exact ⟨_, rfl⟩
  · exact ⟨s.log, rfl⟩

theorem emit_eq (s : Session) (block : Nat) (i : Instruction) (span : Span) :
    ∃ debugMap blocks watch, s.emit block i span = { s with debugMap, blocks, watch } := by
  unfold emit
  split
  · exact ⟨s.debugMap, s.blocks, _, rfl⟩
  · exact ⟨_, _, s.watch, rfl⟩

/-- Changing a block but for its nodes changes no nodes. -/
theorem nodes_modifyBlock {g : Block → Block} (hg : ∀ b, (g b).graph = b.graph) (s : Session) (id : Nat) :
    (s.modifyBlock id g).nodes = s.nodes := by
  funext other
  unfold nodes
  rw [block?_modifyBlock]
  split
  · cases s.block? other with
    | none => rfl
    | some b => exact hg b
  · rfl

theorem nodes_enterLocal (s : Session) (id : Nat) (x : Symbol) : (s.enterLocal id x).nodes = s.nodes := by
  refine nodes_modifyBlock ?_ s id
  intro b
  rfl

theorem nodes_emit (s : Session) (block : Nat) (i : Instruction) (span : Span) :
    (s.emit block i span).nodes = s.nodes := by
  unfold emit
  split
  · rfl
  · refine (nodes_modifyBlock ?_ _ block).trans rfl
    intro b
    rfl

theorem nodes_noteEmission (s : Session) (f : Frame) (pc : Nat) (i : Instruction) :
    (s.noteEmission f pc i).nodes = s.nodes := by
  obtain ⟨log, hlog⟩ := s.noteEmission_eq f pc i
  rw [hlog]
  rfl

end Session

namespace Lowering

variable {α β : Type} {f g : Frame} {s t u : State} {block : Nat}

/-- Code of the frame sees the blocks around it. -/
structure Frame.LooksOut (f : Frame) (s : Session) : Prop where
  blocks : (s.enclosing? f.block).isSome
  body : ∀ body, f.scope.body = some body → (s.block? body).isSome

theorem Frame.LooksOut.of_global {s : Session} (hscope : f.scope.body = none) (h : (s.enclosing? f.block).isSome) :
    f.LooksOut s := by
  refine ⟨h, fun body hbody => ?_⟩
  rw [hscope] at hbody
  cases hbody

/-- Where lowering can go on, code sees the blocks around it. -/
theorem Ready.looksOut {w : Bool} (h : Ready w f s) : f.LooksOut s.session := by
  refine ⟨?_, fun body hbody => ?_⟩
  · obtain ⟨blocks, hblocks⟩ := h.tidy.enclosing? h.stands.block?_isSome
    rw [hblocks]
    rfl
  · obtain ⟨hd, hhead, _⟩ := h.stands.placed.body body hbody
    rw [← Session.header?_isSome, hhead]
    rfl

theorem Frame.LooksOut.congr {s t : Session} (h : f.LooksOut s) (hnames : s.SameNames t) : f.LooksOut t := by
  refine ⟨?_, fun body hbody => ?_⟩
  · rw [hnames.enclosing?_eq]
    exact h.blocks
  · rw [hnames.block?_isSome]
    exact h.body body hbody

theorem Frame.LooksOut.block?_isSome {s : Session} (h : f.LooksOut s) : (s.block? f.block).isSome := by
  obtain ⟨blocks, hblocks⟩ := Option.isSome_iff_exists.mp h.blocks
  exact Session.enclosing?_isSome hblocks

theorem Frame.LooksOut.canEmit {s : Session} (h : f.LooksOut s) : s.CanEmit f.block := .inr h.block?_isSome

theorem Frame.LooksOut.run_sight (h : f.LooksOut s.session) :
    sight f s = .ok (sightFrom f s.session) s := by
  obtain ⟨blocks, hblocks⟩ := Option.isSome_iff_exists.mp h.blocks
  refine sight_eq_ok.mpr ⟨rfl, rfl, ?_, h.body⟩
  unfold sightFrom
  rw [hblocks]
  rfl

/-- Nothing was declared, no node became part of the program, no node that is held back got or lost an
input, and the current one lost none. -/
structure Constant (s t : State) : Prop where
  names : s.session.SameNames t.session
  counters : t.session.counters = s.session.counters
  nodes : t.session.nodes = s.session.nodes
  held : t.held.map GraphNode.bare = s.held.map GraphNode.bare
  isSealed : t.node.isSealed = s.node.isSealed
  block : t.node.block = s.node.block
  inputs : s.node.inputs ⊆ t.node.inputs

theorem Constant.refl (s : State) : Constant s s := ⟨.refl _, rfl, rfl, rfl, rfl, rfl, fun _ h => h⟩

theorem Constant.trans (h : Constant s t) (h' : Constant t u) : Constant s u :=
  ⟨h.names.trans h'.names, h'.counters.trans h.counters, h'.nodes.trans h.nodes, h'.held.trans h.held,
    h'.isSealed.trans h.isSealed, h'.block.trans h.block, fun _ hp => h'.inputs (h.inputs hp)⟩

/-- A change of the session alone. -/
theorem Constant.ofSession {t : Session} (names : s.session.SameNames t)
    (counters : t.counters = s.session.counters) (nodes : t.nodes = s.session.nodes) :
    Constant s { s with session := t } := ⟨names, counters, nodes, rfl, rfl, rfl, fun _ h => h⟩

/-- No node became part of the program, no node that is held back got or lost an input, and the current one
lost none. -/
structure Tended (s t : State) : Prop where
  nodes : t.session.nodes = s.session.nodes
  held : t.held.map GraphNode.bare = s.held.map GraphNode.bare
  isSealed : t.node.isSealed = s.node.isSealed
  block : t.node.block = s.node.block
  inputs : s.node.inputs ⊆ t.node.inputs

theorem Tended.trans (h : Tended s t) (h' : Tended t u) : Tended s u :=
  ⟨h'.nodes.trans h.nodes, h'.held.trans h.held, h'.isSealed.trans h.isSealed, h'.block.trans h.block,
    fun _ hp => h'.inputs (h.inputs hp)⟩

theorem Constant.tended (h : Constant s t) : Tended s t := ⟨h.nodes, h.held, h.isSealed, h.block, h.inputs⟩

/-- Nothing was reported or registered, and no procedure was found to be called. -/
structure Reticent (s t : State) : Prop where
  options : t.session.options = s.session.options
  file : t.session.file = s.session.file
  lateVariables : t.session.lateVariables = s.session.lateVariables
  lateFunctions : t.session.lateFunctions = s.session.lateFunctions
  diagnostics : t.session.diagnostics = s.session.diagnostics
  lastCallee : t.lastCallee = s.lastCallee

theorem Reticent.refl (s : State) : Reticent s s := ⟨rfl, rfl, rfl, rfl, rfl, rfl⟩

theorem Reticent.trans (h : Reticent s t) (h' : Reticent t u) : Reticent s u :=
  ⟨h'.options.trans h.options, h'.file.trans h.file, h'.lateVariables.trans h.lateVariables,
    h'.lateFunctions.trans h.lateFunctions, h'.diagnostics.trans h.diagnostics, h'.lastCallee.trans h.lastCallee⟩

/-- Nothing that is compared has changed. -/
structure Unmoved (block : Nat) (s t : State) : Prop where
  constant : Constant s t
  reticent : Reticent s t
  callees : t.session.callees block = s.session.callees block

theorem Unmoved.refl (block : Nat) (s : State) : Unmoved block s s := ⟨.refl s, .refl s, rfl⟩

theorem Unmoved.trans (h : Unmoved block s t) (h' : Unmoved block t u) : Unmoved block s u :=
  ⟨h.constant.trans h'.constant, h.reticent.trans h'.reticent, h'.callees.trans h.callees⟩

/-- Code of the frame can be emitted, and the current node takes inputs. -/
structure Frame.Proceeds (f : Frame) (s : State) : Prop where
  looksOut : f.LooksOut s.session
  isWatching : s.session.isWatching = false
  isOpen : s.node.isSealed = false

theorem Frame.Proceeds.congr (h : f.Proceeds s) (hst : Constant s t) : f.Proceeds t :=
  ⟨h.looksOut.congr hst.names, hst.names.isWatching.trans h.isWatching, hst.isSealed.trans h.isOpen⟩

/-- Of the frame only the place among blocks and procedures matters. -/
theorem Frame.Proceeds.site (h : f.Proceeds s) (hsite : g.site = f.site) : g.Proceeds s := by
  obtain ⟨block, scope, dialect⟩ := f
  obtain ⟨block', scope', dialect'⟩ := g
  cases hsite
  exact ⟨⟨h.looksOut.blocks, h.looksOut.body⟩, h.isWatching, h.isOpen⟩

/-- The step finishes and changes nothing that is compared. -/
def Silent (m : Lower α) : Prop := ∀ f s, f.Proceeds s → ∃ a t, m f s = .ok a t ∧ Unmoved f.block s t

namespace Silent

theorem unmoved {m : Lower α} (h : Silent m) (hs : f.Proceeds s) {a : α} (hrun : m f s = .ok a t) :
    Unmoved f.block s t := by
  obtain ⟨b, u, hrun', hst⟩ := h f s hs
  rw [hrun] at hrun'
  cases hrun'
  exact hst

theorem looking {m : Lower α} (h : ∀ f s, f.Proceeds s → ∃ a, m f s = .ok a s) : Silent m := by
  intro f s hs
  obtain ⟨a, ha⟩ := h f s hs
  exact ⟨a, s, ha, .refl _ s⟩

theorem pure (a : α) : Silent (Pure.pure a : Lower α) := looking fun _ _ _ => ⟨a, rfl⟩

theorem bind {m : Lower α} {k : α → Lower β} (hm : Silent m) (hk : ∀ a, Silent (k a)) :
    Silent (m >>= k) := by
  intro f s hs
  obtain ⟨a, t, hrun, hst⟩ := hm f s hs
  obtain ⟨b, u, hrun', htu⟩ := hk a f t (hs.congr hst.constant)
  refine ⟨b, u, ?_, hst.trans htu⟩
  rw [run_bind, hrun]
  exact hrun'

theorem ite {c : Prop} [Decidable c] {m n : Lower α} (hm : Silent m) (hn : Silent n) :
    Silent (if c then m else n) := by
  split
  · exact hm
  · exact hn

theorem forM {l : List β} {k : β → Lower Unit} (h : ∀ a, Silent (k a)) : Silent (l.forM k) := by
  induction l with
  | nil => exact pure ()
  | cons a rest ih => exact bind (h a) fun _ => ih

theorem read : Silent (MonadReader.read : Lower Frame) := looking fun f _ _ => ⟨f, rfl⟩

theorem get : Silent (MonadState.get : Lower State) := looking fun _ s _ => ⟨s, rfl⟩

theorem getSession : Silent getSession := looking fun _ s _ => ⟨s.session, rfl⟩

theorem classScope : Silent classScope := looking fun f _ _ => ⟨f.scope.classScope, rfl⟩

theorem sight : Silent sight := looking fun f s hs => ⟨sightFrom f s.session, hs.looksOut.run_sight⟩

theorem note (level : LogLevel) (topic : LogTopic) (message : String) :
    Silent (Lowering.note level topic message) :=
  fun _ _ _ => ⟨(), _, run_note .., .ofSession ⟨rfl, rfl, rfl, rfl, rfl, rfl⟩ rfl rfl,
    ⟨rfl, rfl, rfl, rfl, rfl, rfl⟩, rfl⟩

/-- The current node may take inputs and be marked. -/
theorem modifyNode {k : GraphNode → GraphNode}
    (h : ∀ n, (k n).isSealed = n.isSealed ∧ (k n).block = n.block ∧ n.inputs ⊆ (k n).inputs) :
    Silent (modifyNode k) :=
  fun _ s _ => ⟨(), _, run_modifyNode .., ⟨.refl _, rfl, rfl, rfl, (h s.node).1, (h s.node).2.1, (h s.node).2.2⟩,
    ⟨rfl, rfl, rfl, rfl, rfl, rfl⟩, rfl⟩

end Silent

/-! ## Emitting -/

/-- Emitting an instruction declares and reports nothing, and calls what the instruction does. -/
theorem run_emits {i : Instruction} {span : Span} {m : Lower Nat} (h : Mild.Emits i span m)
    (hs : s.session.CanEmit f.block) :
    ∃ a t, m f s = .ok a t ∧ Constant s t ∧ Reticent s t ∧
      t.session.callees f.block = s.session.callees f.block ++ i.callee?.toList := by
  obtain ⟨debug, hm⟩ := h f s
  have hnames := (s.session.sameNames_noteEmission f (s.session.stream f.block).size { i with debug }).trans
    (Session.sameNames_emit _ f.block { i with debug } span)
  have hnodes := (Session.nodes_emit (s.session.noteEmission f (s.session.stream f.block).size { i with debug })
    f.block { i with debug } span).trans (s.session.nodes_noteEmission ..)
  have hcallees : (((s.session.noteEmission f (s.session.stream f.block).size
      { i with debug }).emit f.block { i with debug } span).callees f.block) =
        s.session.callees f.block ++ i.callee?.toList := by
    unfold Session.callees
    rw [Session.stream_emit ((Session.canEmit_noteEmission f _ _).mpr hs), Session.stream_noteEmission,
      Array.toList_push, List.filterMap_append]
    have hcallee : Instruction.callee? { i with debug } = i.callee? := rfl
    cases hi : i.callee? <;> simp [hcallee, hi]
  obtain ⟨log, hlog⟩ := s.session.noteEmission_eq f (s.session.stream f.block).size { i with debug }
  obtain ⟨debugMap, blocks, watch, hemit⟩ := (s.session.noteEmission f (s.session.stream f.block).size
    { i with debug }).emit_eq f.block { i with debug } span
  refine ⟨_, _, hm.trans (run_emitWith i span debug f s hs), .ofSession hnames ?_ hnodes, ?_, hcallees⟩
  · rw [hemit, hlog]
  · constructor <;> dsimp only <;> rw [hemit, hlog]

namespace Silent

/-- An instruction that calls nothing is silent. -/
theorem ofEmits {i : Instruction} {span : Span} {m : Lower Nat} (h : Mild.Emits i span m)
    (hi : i.callee? = none) : Silent m := by
  intro f s hs
  obtain ⟨a, t, hrun, hconstant, hreticent, hcallees⟩ := run_emits h hs.looksOut.canEmit
  rw [hi] at hcallees
  exact ⟨a, t, hrun, hconstant, hreticent, by simpa using hcallees⟩

theorem emitSilent {i : Instruction} (hi : i.callee? = none) (span : Span) : Silent (emitSilent i span) :=
  ofEmits (Mild.emits_emitWith i span none) hi

theorem emit {i : Instruction} (hi : i.callee? = none) (span : Span) : Silent (emit i span) :=
  ofEmits (Mild.emits_emitStepping i span []) hi

theorem emitPush (operand : Operand) (dims : Nat) (span : Span) : Silent (emitPush operand dims span) :=
  bind (bind classScope fun _ => pure _) fun _ => emit rfl span

theorem emitPushm (operand : Operand) (cls : Option Nat) (span : Span) : Silent (emitPushm operand cls span) :=
  bind (bind read fun _ => pure _) fun _ => emit rfl span

theorem emitPushlist (depth : Nat) (afterCall : Bool) (span : Span) :
    Silent (emitPushlist depth afterCall span) :=
  bind (bind classScope fun _ => pure _) fun _ => bind (bind read fun _ => pure _) fun _ =>
    emitSilent rfl span

theorem emitPushIndex (operand : Operand) : Silent (emitPushIndex operand) := emitSilent rfl .nil

theorem emitPushDims (dims : Nat) : Silent (emitPushDims dims) :=
  bind (bind classScope fun _ => pure _) fun _ => emitSilent rfl .nil

theorem emitPushVarData (block dims : Nat) (type : Ty) : Silent (emitPushVarData block dims type) :=
  bind (bind classScope fun _ => pure _) fun _ => bind (emitSilent rfl .nil) fun _ =>
    bind (emitSilent rfl .nil) fun _ => bind (bind classScope fun _ => pure _) fun _ => emitSilent rfl .nil

theorem emitStore (symbol : Symbol) (dims : Nat) (span : Span) : Silent (emitStore symbol dims span) := by
  refine bind (emitPushVarData _ _ _) fun _ => @ofEmits (.ternary .pop (.ofSymbol symbol)
    (.cls symbol.classScope) (.arrayDim dims)) span _ ?_ rfl
  exact Mild.Emits.onSwitch (c := fun s => symbol.isTemporary && !s.options.emitPopForTempBreakpoint)
    (Mild.emits_emitWith _ span none) (Mild.emits_emitStepping _ span [])

theorem emitPop (operand : Operand) (cls : Option Nat) (span : Span) : Silent (emitPop operand cls span) :=
  emit rfl span

theorem emitAlloca (count : Nat) (isString : Bool) : Silent (emitAlloca count isString) := emitSilent rfl .nil

theorem emitGuides (guides : List Guide) : Silent (emitGuides guides) :=
  bind (forM fun _ => bind (emitPush _ _ _) fun _ => pure _) fun _ => bind (emitPushIndex _) fun _ => pure _

theorem emitDepx : Silent emitDepx := emitSilent rfl .nil

/-! ## Recording -/

theorem recordRead (path : Path) (viaCall : Bool) : Silent (recordRead path viaCall) := by
  intro f s hs
  refine ⟨(), _, recordRead_eq_ok.mpr ⟨fun _ => hs.isOpen, rfl⟩, ?_⟩
  split
  · have hreads : Silent (do
        Lowering.note .trace .graph ("#" ++ toString s.node.uid ++ " depends on " ++ path.text)
        Lowering.modifyNode fun n => n.reading path viaCall) := by
      refine bind (note _ _ _) fun _ => modifyNode fun n => ⟨rfl, rfl, ?_⟩
      simp [GraphNode.inputs, GraphNode.reading]
    obtain ⟨⟨⟩, t, hrun, hst⟩ := hreads f s hs
    cases hrun
    exact hst
  · exact .refl _ s

theorem foldl_same {γ : Type} {add : GraphNode → Segment → GraphNode} {e : GraphNode → γ}
    (h : ∀ n d, e (add n d) = e n) (l : List Segment) (n : GraphNode) : e (l.foldl add n) = e n := by
  induction l generalizing n with
  | nil => rfl
  | cons d rest ih => exact (ih _).trans (h n d)

theorem map_onLast {γ δ : Type} {e : γ → δ} {k : γ → γ} (h : ∀ a, e (k a) = e a) (l : List γ) :
    (GraphNode.onLast k l).map e = l.map e := by
  induction l with
  | nil => rfl
  | cons a rest ih =>
    cases rest with
    | nil => simp [GraphNode.onLast, h]
    | cons b rest => exact congrArg (e a :: ·) ih

theorem inputs_addDependencyDim (n : GraphNode) (d : Segment) : (n.addDependencyDim d).inputs = n.inputs := by
  refine map_onLast (e := Path.bare) (fun p => ?_) n.dependencies
  exact map_onLast (e := fun x : Segment => { x with dims := [] })
    (k := fun x => { x with dims := x.dims ++ [d] }) (fun _ => rfl) p

/-- Literal subscripts of a split chain go to a node that is held back. -/
theorem recordSplitDims (literals : List Segment) (written : Bool) :
    Silent (recordSplitDims literals written) := by
  refine bind getSession fun s => ite (fun f t ht => ⟨(), _, rfl, ?_⟩) (pure ())
  have hbare (n : GraphNode) : (literals.foldl
      (if written then GraphNode.addDim else GraphNode.addDependencyDim) n).bare = n.bare := by
    cases written with
    | true => exact @foldl_same _ GraphNode.addDim _ (fun _ _ => rfl) literals n
    | false =>
      refine @foldl_same _ GraphNode.addDependencyDim _ (fun n d => ?_) literals n
      unfold GraphNode.bare
      rw [inputs_addDependencyDim]
      rfl
  refine ⟨⟨.refl _, rfl, rfl, ?_, rfl, rfl, fun _ h => h⟩, ⟨rfl, rfl, rfl, rfl, rfl, rfl⟩, rfl⟩
  dsimp only
  cases t.held with
  | nil => rfl
  | cons n rest => simp [onFirst, hbare]

/-- The chain as a whole is recorded besides. -/
theorem recordSplitChain : Silent recordSplitChain := by
  refine bind sight fun v => bind get fun s => bind ?_ fun _ => ?_
  · exact fun f s _ => ⟨(), _, rfl, ⟨.refl _, rfl, rfl, rfl, rfl, rfl, fun _ h => h⟩,
      ⟨rfl, rfl, rfl, rfl, rfl, rfl⟩, rfl⟩
  · split
    · exact pure ()
    · exact bind (note _ _ _) fun _ => recordRead _ _

end Silent

end Lowering

end Diglot
