import Diglot.Proofs.Graph.Charted

/-! # Making dependency nodes

What an associative statement does until its node is complete leaves all other nodes alone (`Gentle`).
The node that it ends with is then behind the others, and covers the code of the value (`Makes`).

A chain that is split makes several nodes, which are held back and become part of the program together;
all the time the nodes are in order with those that are held back (`Holding`).
-/

set_option autoImplicit false

namespace Diglot

open Lowering

/-! ## Where nodes may be added -/

/-- A unit is being compiled, and the blocks of the given indices have the given dialects. -/
structure Session.Sited (sites : List (Nat × Dialect)) (s : Session) : Prop where
  isWatching : s.isWatching = false
  units : s.counters.units ≠ 0
  dialect : ∀ p ∈ sites, ∃ b, s.block? p.1 = some b ∧ b.dialect = p.2

/-- Whatever is known of the blocks stays known. -/
def Session.Onward (s t : Session) : Prop := ∀ sites, s.Sited sites → t.Sited sites

namespace Session

variable {s t u : Session}

theorem Onward.refl (s : Session) : s.Onward s := fun _ h => h

theorem Onward.trans (h : s.Onward t) (h' : t.Onward u) : s.Onward u :=
  fun sites hs => h' sites (h sites hs)

theorem onward_take (s : Session) : s.Onward { s with nextUid := s.nextUid + 1 } :=
  fun _ h => ⟨h.isWatching, h.units, h.dialect⟩

theorem Still.onward (h : s.Still t) : s.Onward t := by
  refine fun sites hs => ⟨h.isWatching.trans hs.isWatching, fun hu => ?_, fun p hp => ?_⟩
  · exact hs.units (h.units.symm.trans hu)
  · obtain ⟨b, hb, hd⟩ := hs.dialect p hp
    obtain ⟨c, hc, hbc⟩ := h.blocks p.1 b hb
    exact ⟨c, hc, hbc.dialect.trans hd⟩

/-- While a unit is compiled, code is only put behind other code. -/
theorem Still.stream (h : s.Still t) (hw : s.isWatching = false) (block : Nat) :
    (s.stream block).toList <+: (t.stream block).toList := by
  unfold Session.stream
  rw [h.isWatching, hw]
  cases hb : s.block? block with
  | none => simp
  | some b =>
    obtain ⟨c, hc, hbc⟩ := h.blocks block b hb
    simpa [hc] using hbc.code

end Session

namespace Lowering

variable {α β : Type} {f : Frame} {s t u : State}

/-! ## Steps that leave all other nodes alone -/

/-- Nothing happened to the nodes, nor to what tells the current one from others. -/
structure Along (s t : State) : Prop where
  session : s.session.Still t.session
  held : t.held.map GraphNode.core = s.held.map GraphNode.core
  node : t.node.uid = s.node.uid ∧ t.node.block = s.node.block ∧ t.node.isSealed = s.node.isSealed

theorem Along.refl (s : State) : Along s s := ⟨.refl _, rfl, rfl, rfl, rfl⟩

theorem Along.trans (h : Along s t) (h' : Along t u) : Along s u := by
  obtain ⟨huid, hblock, hsealed⟩ := h.node
  obtain ⟨huid', hblock', hsealed'⟩ := h'.node
  exact ⟨h.session.trans h'.session, h'.held.trans h.held, huid'.trans huid, hblock'.trans hblock,
    hsealed'.trans hsealed⟩

theorem Kept.along {inert : Bool} (h : Kept inert s t) : Along s t := by
  have hnode := h.node
  simp only [GraphNode.core, GraphNode.mk.injEq] at hnode
  exact ⟨h.session, h.held, hnode.1, hnode.2.1, hnode.2.2.2.2.2.2.2.2.2.2.2.2⟩

/-- However the step ends, it left all nodes alone. -/
def Gentle (m : Lower α) : Prop := ∀ f s, Along s (ending (m f s))

namespace Gentle

theorem ofMild {m : Lower α} (h : Tame false false m) : Gentle m :=
  fun f s => (h.keeps f s).along

theorem bind {m : Lower α} {k : α → Lower β} (hm : Gentle m) (hk : ∀ a, Gentle (k a)) :
    Gentle (m >>= k) := by
  intro f s
  have hfirst := hm f s
  rw [run_bind]
  cases hs : m f s <;> rw [hs] at hfirst
  · exact hfirst.trans (hk _ f _)
  · exact hfirst

theorem ok {m : Lower α} (h : Gentle m) {a : α} (hrun : m f s = .ok a t) : Along s t := by
  have := h f s
  rwa [hrun] at this

theorem ite {c : Prop} [Decidable c] {m n : Lower α} (hm : Gentle m) (hn : Gentle n) :
    Gentle (if c then m else n) := by
  split
  · exact hm
  · exact hn

theorem looking {m : Lower α} (h : ∀ f s, ending (m f s) = s) : Gentle m := by
  intro f s
  rw [h]
  exact .refl s

theorem pure (a : α) : Gentle (Pure.pure a : Lower α) := looking fun _ _ => rfl

theorem sight : Gentle sight := by
  refine looking fun f s => ?_
  rw [run_sight]
  cases sightIn f s.session <;> rfl

theorem recordSplitChain : Gentle recordSplitChain := by
  refine bind sight fun v => bind (looking fun _ _ => rfl) fun w => bind (fun _ s => ?_) fun _ => ?_
  · exact ⟨.refl _, rfl, rfl, rfl, rfl⟩
  · split
    · exact pure _
    · exact bind (ofMild (.note _ _ _)) fun _ => ofMild (.recordRead _ _)

theorem lowerValueAndStore (target value : Node) (isLast : Bool) :
    Gentle (lowerValueAndStore target value isLast) := by
  have hstore (start : Nat) (type : Ty) (last : Nat) : Gentle (do
      let updated ← assignTo target (← refineType type)
      return (start, last, updated)) :=
    bind (ofMild (.refineType _)) fun _ =>
      bind (ofMild (.assignTo _ _)) fun _ => pure _
  refine bind (ofMild .pc) fun start =>
    bind (ofMild (.expression value)) fun type =>
      bind (ofMild .pc) fun last => ite (bind recordSplitChain fun _ => ?_) ?_
  · exact hstore _ _ _
  · exact hstore _ _ _

theorem returnStatement (value : Option Node) (span : Span) :
    Gentle (returnStatement value span) := by
  have hrest (procedure : Option Procedure) : Gentle (finishReturn value span procedure) := by
    refine bind (ofMild .pc) fun start => ?_
    refine bind (ofMild (.lowerReturned value span)) fun type => ?_
    refine bind (ofMild .pc) fun last => ?_
    refine bind (fun _ s => ⟨.refl _, rfl, rfl, rfl, rfl⟩) fun _ => ?_
    refine bind (ofMild (.checkReturned _ _ _)) fun _ => ?_
    exact bind (ofMild (.emitResult _)) fun _ => pure _
  refine bind (ofMild .currentProcedure?) fun procedure => ?_
  cases procedure with
  | none => exact hrest none
  | some p =>
    exact ite (bind (ofMild (.halt _ _ _)) fun _ => hrest _) (hrest _)

end Gentle

/-! ## Making a node -/

theorem run_freshNode (isTemporary : Bool) (f : Frame) (s : State) :
    freshNode isTemporary f s =
      .ok { uid := s.session.nextUid, block := f.block, procedure := f.scope.procedure
            classScope := f.scope.classScope, isTemporary }
        { s with session := { s.session with nextUid := s.session.nextUid + 1 } } := rfl

theorem run_tracking (node : GraphNode) (m : Lower α) (f : Frame) (s : State) :
    tracking node m f s =
      match m { f with isTracked := true } { s with node } with
      | .ok a t => .ok (a, t.node) t
      | .error e t => .error e t := by
  cases hm : m { f with isTracked := true } { s with node } <;>
    simp only [tracking, run_bind, run_modify, run_withReader, run_get, run_pure, hm]

theorem pc_eq_ok {p : Nat} (h : pc f s = .ok p t) :
    s = t ∧ p = (s.session.stream f.block).size := by
  by_cases hcan : s.session.CanEmit f.block
  · rw [run_pc f s hcan] at h
    cases h
    exact ⟨rfl, rfl⟩
  · rw [run_pc_error f s hcan] at h
    cases h

/-- A run that ends with a node of the current block, or stops. -/
structure Makes (f : Frame) (s : State) (r : EStateM.Result Stop State GraphNode) : Prop where
  session : Session.Still { s.session with nextUid := s.session.nextUid + 1 } (ending r).session
  held : (ending r).held.map GraphNode.core = s.held.map GraphNode.core
  node : ∀ n t, r = .ok n t → n.isSealed = false ∧ n.block = f.block ∧ n.uid = s.session.nextUid ∧
    (s.session.stream f.block).size ≤ n.startPc ∧ Computed (t.session.stream f.block) n

/-- The value of a statement is lowered from `t` to `u`, and the statement ends in `v`. -/
theorem covers_of_still {v : State} {n : GraphNode} (hw : t.session.isWatching = false)
    (htu : t.session.Still u.session) (huv : u.session.Still v.session) (hblock : n.block = f.block)
    (hemits : (t.session.stream f.block).size + 1 ≤ (u.session.stream f.block).size)
    (hstart : n.startPc = (t.session.stream f.block).size)
    (hend : n.endPc = (u.session.stream f.block).size - 1) :
    Covers (v.session.stream f.block) n t u := by
  obtain ⟨emitted, hemitted⟩ := htu.stream hw f.block
  obtain ⟨behind, hbehind⟩ := huv.stream (htu.isWatching.trans hw) f.block
  refine ⟨emitted, behind, ?_, ?_, ?_, ?_⟩
  · rw [hblock, hemitted]
  · rw [hblock, hemitted, hbehind]
  · rw [hblock, hstart]
  · have hsize := congrArg List.length hemitted
    simp only [List.length_append, Array.length_toList] at hsize
    omega

/-- What the last called procedure returns, for a value of unknown type. -/
def State.refined (s : State) (type : Ty) : Ty :=
  if type.is .var then
    match s.lastCallee.bind s.session.procedure? with
    | some p => p.returns
    | none => type
  else type

theorem run_refineType (type : Ty) (f : Frame) (s : State) :
    refineType type f s = .ok (s.refined type) s := by
  unfold refineType State.refined
  rw [run_ite]
  split
  · simp only [run_bind, run_getSession, run_get]
    cases s.lastCallee.bind s.session.procedure? <;> rfl
  · rfl

/-- The chain that is being split is recorded where it ends. -/
def RecordsChain (isLast : Bool) (f : Frame) (s t : State) : Prop :=
  if isLast then recordSplitChain f s = .ok () t else t = s

theorem RecordsChain.along {isLast : Bool} (h : RecordsChain isLast f s t) : Along s t := by
  unfold RecordsChain at h
  split at h
  · exact Gentle.recordSplitChain.ok h
  · exact h ▸ .refl s

/-- The value is lowered, perhaps the chain that is being split is recorded, and then comes the store. -/
theorem lowerValueAndStore_ok {target value : Node} {isLast : Bool} {p q : Nat} {path : Path}
    (hrun : lowerValueAndStore target value isLast f s = .ok (p, q, path) t) :
    ∃ type u v, expression value f s = .ok type u ∧ p = (s.session.stream f.block).size ∧
      q = (u.session.stream f.block).size - 1 ∧ RecordsChain isLast f u v ∧
      assignTo target (v.refined type) f v = .ok path t := by
  obtain ⟨p', s', hp, hrun⟩ := bind_eq_ok.mp hrun
  obtain ⟨rfl, rfl⟩ := pc_eq_ok hp
  obtain ⟨type, u, hvalue, hrun⟩ := bind_eq_ok.mp hrun
  obtain ⟨q', u', hq, hrun⟩ := bind_eq_ok.mp hrun
  obtain ⟨rfl, rfl⟩ := pc_eq_ok hq
  have hstore {v : State} (hrun : (do
      let updated ← assignTo target (← refineType type)
      return ((s.session.stream f.block).size, (u.session.stream f.block).size - 1, updated) :
        Lower (Nat × Nat × Path)) f v = .ok (p, q, path) t) :
      p = (s.session.stream f.block).size ∧ q = (u.session.stream f.block).size - 1 ∧
        assignTo target (v.refined type) f v = .ok path t := by
    rw [run_bind, run_refineType] at hrun
    obtain ⟨updated, w, hassign, hrun⟩ := bind_eq_ok.mp hrun
    cases hrun
    exact ⟨rfl, rfl, hassign⟩
  cases isLast with
  | true =>
    obtain ⟨⟨⟩, v, hchain, hrun⟩ := bind_eq_ok.mp hrun
    obtain ⟨hp, hq, hassign⟩ := hstore hrun
    exact ⟨type, u, v, hvalue, hp, hq, hchain, hassign⟩
  | false =>
    obtain ⟨hp, hq, hassign⟩ := hstore hrun
    exact ⟨type, u, u, hvalue, hp, hq, rfl, hassign⟩

/-- The value of a return statement is lowered, and then the node gets its range. -/
theorem returnStatement_ok {value : Option Node} {span : Span}
    (hrun : returnStatement value span f s = .ok () t) :
    ∃ type u, lowerReturned value span f s = .ok type u ∧
      Kept true { u with node := { u.node with
        startPc := (s.session.stream f.block).size, endPc := (u.session.stream f.block).size - 1 } } t := by
  have hrest {procedure : Option Procedure} (hrun : (do
      let startPc ← pc
      let type ← lowerReturned value span
      let endPc := (← pc) - 1
      modifyNode fun n => { n with startPc, endPc }
      checkReturned procedure type span
      let _ ← emitResult span : Lower Unit) f s = .ok () t) :
      ∃ type u, lowerReturned value span f s = .ok type u ∧
        Kept true { u with node := { u.node with
          startPc := (s.session.stream f.block).size, endPc := (u.session.stream f.block).size - 1 } } t := by
    obtain ⟨p, s', hp, hrun⟩ := bind_eq_ok.mp hrun
    obtain ⟨rfl, rfl⟩ := pc_eq_ok hp
    obtain ⟨type, u, hvalue, hrun⟩ := bind_eq_ok.mp hrun
    obtain ⟨q, u', hq, hrun⟩ := bind_eq_ok.mp hrun
    obtain ⟨rfl, rfl⟩ := pc_eq_ok hq
    obtain ⟨⟨⟩, v, hmodify, hrun⟩ := bind_eq_ok.mp hrun
    cases hmodify
    obtain ⟨⟨⟩, w, hcheck, hrun⟩ := bind_eq_ok.mp hrun
    obtain ⟨_, x, hemit, hrun⟩ := bind_eq_ok.mp hrun
    cases hrun
    have hchecking : Tame true false (checkReturned procedure type span) := .checkReturned _ _ _
    have hemitting : Tame true false (emitResult span) := .emitResult _
    exact ⟨type, u, hvalue, (hchecking.keeps_ok hcheck).trans (hemitting.keeps_ok hemit)⟩
  obtain ⟨procedure, s', hp, hrun⟩ := bind_eq_ok.mp hrun
  have hlook : currentProcedure? f s = .ok (f.scope.procedure.bind s.session.procedure?) s := rfl
  rw [hlook] at hp
  obtain ⟨-, rfl⟩ := EStateM.Result.ok.inj hp
  cases procedure with
  | none => exact hrest hrun
  | some p =>
    dsimp only at hrun
    rw [run_ite] at hrun
    split at hrun
    · cases hrun
    · exact hrest hrun

/-- Whatever became of the current node, the step left all others alone. -/
def Calm (m : Lower α) : Prop :=
  ∀ f s, s.session.Still (ending (m f s)).session ∧
    (ending (m f s)).held.map GraphNode.core = s.held.map GraphNode.core

namespace Calm

theorem ofGentle {m : Lower α} (h : Gentle m) : Calm m := fun f s => ⟨(h f s).session, (h f s).held⟩

theorem bind {m : Lower α} {k : α → Lower β} (hm : Calm m) (hk : ∀ a, Calm (k a)) :
    Calm (m >>= k) := by
  intro f s
  have hfirst := hm f s
  rw [run_bind]
  cases hs : m f s <;> rw [hs] at hfirst
  · obtain ⟨hsession, hheld⟩ := hk _ f _
    exact ⟨hfirst.1.trans hsession, hheld.trans hfirst.2⟩
  · exact hfirst

theorem tracking (node : GraphNode) {m : Lower α} (h : Gentle m) : Calm (tracking node m) := by
  intro f s
  have hrun := h { f with isTracked := true } { s with node }
  rw [run_tracking]
  cases hs : m { f with isTracked := true } { s with node } <;> rw [hs] at hrun
  · exact ⟨hrun.session, hrun.held⟩
  · exact ⟨hrun.session, hrun.held⟩

end Calm

theorem Makes.ofCalm {isTemporary : Bool} {k : GraphNode → Lower GraphNode} (hk : ∀ n, Calm (k n))
    (hnode : ∀ n t, (freshNode isTemporary >>= k) f s = .ok n t →
      n.isSealed = false ∧ n.block = f.block ∧ n.uid = s.session.nextUid ∧
        (s.session.stream f.block).size ≤ n.startPc ∧ Computed (t.session.stream f.block) n) :
    Makes f s ((freshNode isTemporary >>= k) f s) := by
  obtain ⟨hsession, hheld⟩ := hk
    { uid := s.session.nextUid, block := f.block, procedure := f.scope.procedure
      classScope := f.scope.classScope, isTemporary } f
    { s with session := { s.session with nextUid := s.session.nextUid + 1 } }
  exact ⟨hsession, hheld, hnode⟩

theorem makes_graphStatement (target value : Node) (span : Span) (isTemporary isLast : Bool)
    (hw : s.session.isWatching = false) :
    Makes f s (graphStatement target value span isTemporary isLast f s) := by
  have hprobe : Gentle (probe value) := .ofMild (.probe value)
  have hdepx : Gentle emitDepx := .ofMild (.emitSilent _ _)
  refine .ofCalm (fun fresh => ?_) fun m v hrun => ?_
  · refine .bind (.ofGentle hprobe) fun _ => .bind (.tracking fresh (.lowerValueAndStore _ _ _)) ?_
    refine fun result => .bind (.ofGentle hdepx) fun _ => .ofGentle (.bind ?_ fun _ => .pure _)
    exact .ofMild (.note _ _ _)
  · have hstatement : graphStatement target value span isTemporary isLast f s = .ok m v := hrun
    obtain ⟨fresh, s₁, hopened, hrun⟩ := bind_eq_ok.mp hrun
    obtain ⟨⟨⟩, s₂, hprobed, hrun⟩ := bind_eq_ok.mp hrun
    obtain ⟨⟨⟨p, q, path⟩, node⟩, s₃, htracked, hrun⟩ := bind_eq_ok.mp hrun
    obtain ⟨_, s₄, hemit, hrun⟩ := bind_eq_ok.mp hrun
    obtain ⟨⟨⟩, s₅, hnote, hrun⟩ := bind_eq_ok.mp hrun
    cases hrun
    rw [run_tracking] at htracked
    split at htracked
    case h_2 => cases htracked
    next result t hvalue =>
    cases htracked
    have halong := (Gentle.lowerValueAndStore _ _ _).ok hvalue
    obtain ⟨type, u, v, hvalued, rfl, rfl, hrecorded, hassign⟩ := lowerValueAndStore_ok hvalue
    have hrest := hrecorded.along.trans ((Gentle.ofMild (.assignTo _ _)).ok hassign)
    obtain ⟨rfl, rfl⟩ := EStateM.Result.ok.inj ((run_freshNode isTemporary f s).symm.trans hopened)
    -- Probing may only declare; then comes the value, and the rest of the statement behind it.
    have hopen := hprobe.ok hprobed
    have hclose := (hdepx.ok hemit).trans
      ((Gentle.ofMild (.note _ _ _)).ok hnote)
    obtain ⟨huid, hblock, hsealed⟩ := halong.node
    have hwatch := hopen.session.isWatching.trans hw
    have hvalue : Tame false true (expression value) := .expression value
    have hemits := hvalue.emits _ _ _ _ hvalued
    refine ⟨hsealed, hblock, huid, (hopen.session.stream hw f.block).length_le, ?_⟩
    refine .assignment hblock.symm hstatement ?_ hopened hprobed hvalued ?_
    · exact congrArg _ hsealed
    · refine covers_of_still hwatch (hvalue.keeps_ok hvalued).session ?_ hblock hemits rfl rfl
      exact hrest.session.trans hclose.session

/-- The node of a return statement. -/
def returnNode (value : Option Node) (span : Span) : Lower GraphNode := do
  let fresh ← freshNode false
  let (_, node) ← tracking fresh (returnStatement value span)
  return node

theorem lowerReturn_eq (value : Option Node) (span : Span) :
    lowerReturn value span = (do
      let node ← returnNode value span
      commit { node with updated := some (returnPath (← classScope)) }) := by
  simp only [lowerReturn, returnNode, bind_assoc, pure_bind]

theorem makes_returnNode (value : Option Node) (span : Span) (hw : s.session.isWatching = false) :
    Makes f s (returnNode value span f s) := by
  refine .ofCalm (fun fresh => ?_) fun m v hrun => ?_
  · exact .bind (.tracking fresh (.returnStatement _ _)) fun result => .ofGentle (.pure _)
  · obtain ⟨fresh, s₁, hopened, hrun⟩ := bind_eq_ok.mp hrun
    obtain ⟨⟨⟨⟩, node⟩, s₂, htracked, hrun⟩ := bind_eq_ok.mp hrun
    cases hrun
    have hstatement := htracked
    rw [run_tracking] at htracked
    split at htracked
    case h_2 => cases htracked
    next result t hreturn =>
    cases htracked
    have halong := (Gentle.returnStatement _ _).ok hreturn
    obtain ⟨type, u, hvalued, hkept⟩ := returnStatement_ok hreturn
    have hnode := (hkept.inert rfl).2
    have hstart := congrArg GraphNode.startPc hnode
    have hend := congrArg GraphNode.endPc hnode
    obtain ⟨rfl, rfl⟩ := EStateM.Result.ok.inj ((run_freshNode false f s).symm.trans hopened)
    obtain ⟨huid, hblock, hsealed⟩ := halong.node
    have hvalue : Tame false true (lowerReturned value span) := .lowerReturned value span
    have hemits := hvalue.emits _ _ _ _ hvalued
    refine ⟨hsealed, hblock, huid, Nat.le_of_eq hstart.symm, ?_⟩
    refine .returned hblock.symm hopened hstatement (congrArg _ hsealed) hvalued ?_
    refine covers_of_still ?_ (hvalue.keeps_ok hvalued).session hkept.session hblock hemits hstart hend
    exact hw

theorem Makes.charted {r : EStateM.Result Stop State GraphNode} (h : Makes f s r)
    (hs : s.session.Sited [(f.block, .associative)]) {held held' : List GraphNode}
    (hc : s.session.Charted f.block held)
    (hheld : held'.map GraphNode.core = held.map GraphNode.core) {n : GraphNode}
    (hr : r = .ok n t) : t.session.Charted f.block (held' ++ [n]) := by
  obtain ⟨hsealed, hblock, huid, hstart, hcomputed⟩ := h.node n t hr
  have hst : Session.Still { s.session with nextUid := s.session.nextUid + 1 } t.session := by
    have := h.session
    rwa [hr] at this
  obtain ⟨b, hb, hdialect⟩ := hs.dialect _ (List.mem_singleton_self _)
  obtain ⟨c, hc', hbc⟩ := hst.blocks f.block b hb
  have hwatch : t.session.isWatching = false := hst.isWatching.trans hs.isWatching
  have hstreams : s.session.stream f.block = b.code := by
    simp [Session.stream, hs.isWatching, hb]
  have hstreamt : t.session.stream f.block = c.code := by
    simp [Session.stream, hwatch, hc']
  rw [hstreams] at hstart
  rw [hstreamt] at hcomputed
  have hchart (id : Nat) : t.session.chart f.block held' id = s.session.chart f.block held id :=
    hst.chart hheld id
  refine (hc.take.still hst hheld).extend hc' (hbc.dialect.trans hdialect) ?_ hblock ?_
    hcomputed (fun id m hm => ?_) fun m hm => ?_
  · exact fun hu => hs.units (hst.units.symm.trans hu)
  · have hnext : t.session.nextUid = s.session.nextUid + 1 := hst.nextUid
    omega
  · rw [hchart] at hm
    exact huid ▸ hc.below id m hm
  · -- Nodes of the block end within its code, and the new one starts behind that code.
    rw [hchart] at hm
    obtain ⟨-, -, hold⟩ := hc.nodes f.block b hb m hm
    have := hold.range.2
    omega

/-! ## Adding nodes to the program -/

theorem run_commit (n : GraphNode) (f : Frame) (s : State) :
    commit n f s =
      if n.isSealed then .error (.defect (.sealedTwice n.uid)) s
      else modifyBlock n.block (fun b => { b with graph := b.graph.push { n with isSealed := true } }) f
        { s with session := s.session.note .trace .graph ("sealed " ++ n.text) } := by
  simp only [commit, run_bind, run_ite, run_defect, run_note]

/-- The first of the nodes that are held back for the current block becomes part of the program. -/
theorem charted_commit {n : GraphNode} {rest : List GraphNode}
    (hs : s.session.Sited [(f.block, .associative)]) (hc : s.session.Charted f.block (n :: rest)) :
    s.session.Onward (ending (commit n f s)).session ∧
      (ending (commit n f s)).session.Charted f.block [] ∧
        ∀ a t, commit n f s = .ok a t → t.session.Charted f.block rest := by
  obtain ⟨b, hb, -⟩ := hs.dialect _ (List.mem_singleton_self _)
  have hblock : n.block = f.block := by
    refine (hc.nodes f.block b hb n.closed ?_).2.1
    simp [Session.chart]
  rw [← hblock] at hc hb ⊢
  rw [run_commit]
  split
  · exact ⟨.refl _, hc.drop _, fun _ _ h => by cases h⟩
  let u : Session := s.session.note .trace .graph ("sealed " ++ n.text)
  have hu : s.session.Still u := Session.still_of_blocks rfl rfl rfl rfl
  have hbu : u.block? n.block = some b := hb
  have hcharted := (hc.still hu rfl).commit (by rw [hbu]; rfl)
  rw [modifyBlock_run]
  dsimp only
  rw [hbu]
  refine ⟨fun sites hsites => ?_, hcharted.drop _, fun a t hrun => ?_⟩
  · refine ⟨hsites.isWatching, hsites.units, fun p hp => ?_⟩
    obtain ⟨c, hc', hd⟩ := hsites.dialect p hp
    have hcu : u.block? p.1 = some c := hc'
    dsimp only [ending]
    rw [Session.block?_modifyBlock, hcu]
    split
    · exact ⟨_, rfl, hd⟩
    · exact ⟨c, rfl, hd⟩
  · cases hrun
    exact hcharted

/-- Nodes of the current block become part of the program one after the other. -/
theorem charted_forM_commit {nodes : List GraphNode}
    (hs : s.session.Sited [(f.block, .associative)]) (hc : s.session.Charted f.block nodes) :
    s.session.Onward (ending (nodes.forM commit f s)).session ∧
      (ending (nodes.forM commit f s)).session.Charted f.block [] := by
  induction nodes generalizing s with
  | nil => exact ⟨.refl _, hc⟩
  | cons n rest ih =>
    obtain ⟨honward, hcharted, hrest⟩ := charted_commit hs hc
    change s.session.Onward (ending ((commit n >>= fun _ => rest.forM commit) f s)).session ∧
      (ending ((commit n >>= fun _ => rest.forM commit) f s)).session.Charted f.block []
    rw [run_bind]
    cases hrun : commit n f s with
    | ok a t =>
      rw [hrun] at honward
      obtain ⟨honward', hcharted'⟩ := ih (honward _ hs) (hrest a t hrun)
      exact ⟨honward.trans honward', hcharted'⟩
    | error e t =>
      rw [hrun] at honward hcharted
      exact ⟨honward, hcharted⟩

/-- A step in the middle of a split keeps the nodes in order with those that are held back. -/
def Holding (f : Frame) (m : Lower α) : Prop :=
  ∀ s, s.session.Sited [(f.block, .associative)] → s.session.Charted f.block s.held →
    s.session.Onward (ending (m f s)).session ∧
      (ending (m f s)).session.Charted f.block [] ∧
        ∀ a t, m f s = .ok a t → t.session.Charted f.block t.held

namespace Holding

theorem bind {m : Lower α} {k : α → Lower β} (hm : Holding f m) (hk : ∀ a, Holding f (k a)) :
    Holding f (m >>= k) := by
  intro s hs hc
  obtain ⟨honward, hcharted, hheld⟩ := hm s hs hc
  rw [run_bind]
  cases hrun : m f s with
  | ok a t =>
    rw [hrun] at honward
    obtain ⟨honward', hrest⟩ := hk a t (honward _ hs) (hheld a t hrun)
    exact ⟨honward.trans honward', hrest⟩
  | error e t =>
    rw [hrun] at honward hcharted
    exact ⟨honward, hcharted, fun _ _ h => by cases h⟩

theorem ofGentle {m : Lower α} (h : Gentle m) : Holding f m := by
  intro s hs hc
  have halong := h f s
  have hcharted := hc.still halong.session halong.held
  refine ⟨halong.session.onward, hcharted.drop _, fun a t hrun => ?_⟩
  rw [hrun] at hcharted
  exact hcharted

theorem hold {g : Frame → Frame} (hg : ∀ f, (g f).block = f.block) (target value : Node) (span : Span)
    (isTemporary isLast : Bool) :
    Holding f (withReader g (graphStatement target value span isTemporary isLast) >>= hold) := by
  intro s hs hc
  have hsite : s.session.Sited [((g f).block, .associative)] := by rwa [hg]
  have hmakes := makes_graphStatement (f := g f) target value span isTemporary isLast hs.isWatching
  rw [run_bind, run_withReader]
  cases hrun : graphStatement target value span isTemporary isLast (g f) s with
  | error e t =>
    have hst := hmakes.session
    rw [hrun] at hst
    exact ⟨(Session.onward_take _).trans hst.onward, (hc.drop f.block).take.still hst rfl,
      fun _ _ h => by cases h⟩
  | ok n t =>
    have hst := hmakes.session
    have hheld := hmakes.held
    rw [hrun] at hst hheld
    have hcharted := hmakes.charted hsite (by rwa [hg]) hheld hrun
    rw [hg] at hcharted
    refine ⟨(Session.onward_take _).trans hst.onward, hcharted.drop _, fun a u hu => ?_⟩
    cases hu
    exact hcharted

theorem holdThen {g : Frame → Frame} (hg : ∀ f, (g f).block = f.block) {target value : Node}
    {span : Span} {isTemporary isLast : Bool} {k : Unit → Lower α} (hk : ∀ a, Holding f (k a)) :
    Holding f (withReader g (graphStatement target value span isTemporary isLast) >>=
      fun n => Lowering.hold n >>= k) := by
  rw [← bind_assoc]
  exact bind (hold hg _ _ _ _ _) hk

theorem pushPointers (segments : List Node) : Holding f (pushPointers segments) :=
  ofGentle fun _ _ => ⟨.refl _, rfl, rfl, rfl, rfl⟩

theorem nextTemporary (letters : String) : Holding f (nextTemporary letters) :=
  ofGentle (.ofMild (.nextTemporary letters))

theorem lowerFactors (target : Node) (span : Span) (factor : Node) (anchor : Option Nat)
    (rest : List Node) : Holding f (lowerFactors target span factor anchor rest) := by
  induction rest generalizing factor anchor with
  | nil =>
    refine bind (nextTemporary _) fun name => holdThen (g := fun f => { f with anchor }) ?_ fun _ => ?_
    · exact fun _ => rfl
    exact hold (g := id) (fun _ => rfl) _ _ _ _ _
  | cons segment rest ih =>
    refine bind (nextTemporary _) fun name => holdThen (g := fun f => { f with anchor }) ?_ fun _ => ?_
    · exact fun _ => rfl
    exact bind (pushPointers _) fun _ => ih _ _

theorem splitChain (target : Node) (segments : List Node) (span : Span) :
    Holding f (splitChain target segments span) := by
  refine bind (ofGentle .sight) fun v => ?_
  split
  · exact bind (pushPointers _) fun _ => lowerFactors _ _ _ _ _
  · exact bind (pushPointers _) fun _ => lowerFactors _ _ _ _ _
  · exact ofGentle (.ofMild (.defect _))

end Holding

end Lowering

end Diglot
