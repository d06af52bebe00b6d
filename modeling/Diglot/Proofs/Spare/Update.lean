import Diglot.Proofs.Graph.Node
import Diglot.Proofs.Spare.Expression

/-! # Statements that spare what is there

Statements without statements inside, and the parts of the others that are not.

An associative assignment has a node, which becomes part of the block that it was made for. Of nodes that
are held back while a chain is split this has to be remembered (`HoldsOwn`).
-/

set_option autoImplicit false

namespace Diglot.Lowering

variable {α β : Type} {I : Session → Prop} {known : Nat} {free : String → Prop} {f : Frame}

/-! ## Nodes that are held back -/

/-- All nodes that are held back are nodes of the current block. -/
def HoldsOwn (f : Frame) (m : Lower α) : Prop :=
  ∀ s : State, s.session.isWatching = false → (∀ n ∈ s.held, n.block = f.block) →
    (ending (m f s)).session.isWatching = false ∧ ∀ n ∈ (ending (m f s)).held, n.block = f.block

namespace HoldsOwn

theorem bind {m : Lower α} {k : α → Lower β} (hm : HoldsOwn f m) (hk : ∀ a, HoldsOwn f (k a)) :
    HoldsOwn f (m >>= k) := by
  intro s hw hs
  have hfirst := hm s hw hs
  rw [run_bind]
  cases hrun : m f s with
  | ok a t =>
    rw [hrun] at hfirst
    exact hk a t hfirst.1 hfirst.2
  | error e t =>
    rw [hrun] at hfirst
    exact hfirst

/-- The nodes that are held back stay nodes of the same blocks. -/
theorem blocks_of_cores {held held' : List GraphNode}
    (h : held'.map GraphNode.core = held.map GraphNode.core) {block : Nat}
    (hheld : ∀ n ∈ held, n.block = block) : ∀ n ∈ held', n.block = block := by
  intro n hn
  have hcore : n.core ∈ held.map GraphNode.core := by
    rw [← h]
    exact List.mem_map_of_mem hn
  obtain ⟨m, hm, heq⟩ := List.mem_map.mp hcore
  have hblock := congrArg GraphNode.block heq
  exact hblock.symm.trans (hheld m hm)

theorem ofGentle {m : Lower α} (h : Gentle m) : HoldsOwn f m := by
  intro s hw hs
  have halong := h f s
  exact ⟨halong.session.isWatching.trans hw, blocks_of_cores halong.held hs⟩

theorem hold {k : Frame → Frame} (hk : (k f).block = f.block) (target value : Node) (span : Span)
    (isTemporary isLast : Bool) :
    HoldsOwn f (withReader k (graphStatement target value span isTemporary isLast) >>= hold) := by
  intro s hw hs
  have hmakes := makes_graphStatement (f := k f) target value span isTemporary isLast hw
  have hst := hmakes.session.isWatching.trans hw
  have hheld := blocks_of_cores hmakes.held hs
  rw [run_bind, run_withReader]
  cases hrun : graphStatement target value span isTemporary isLast (k f) s with
  | error e t =>
    rw [hrun] at hst hheld
    exact ⟨hst, hheld⟩
  | ok n t =>
    have hblock := (hmakes.node n t hrun).2.1
    rw [hrun] at hst hheld
    refine ⟨hst, fun m hm => ?_⟩
    rcases List.mem_append.mp hm with hm | hm
    · exact hheld m hm
    · rw [List.mem_singleton.mp hm, hblock, hk]

theorem holdThen {k : Frame → Frame} (hk : (k f).block = f.block) {target value : Node} {span : Span}
    {isTemporary isLast : Bool} {next : Unit → Lower α} (hnext : ∀ a, HoldsOwn f (next a)) :
    HoldsOwn f (withReader k (graphStatement target value span isTemporary isLast) >>=
      fun n => Lowering.hold n >>= next) := by
  rw [← bind_assoc]
  exact bind (hold hk _ _ _ _ _) hnext

theorem pushPointers (segments : List Node) : HoldsOwn f (pushPointers segments) :=
  fun _ hw hs => ⟨hw, hs⟩

theorem lowerFactors (target : Node) (span : Span) (factor : Node) (anchor : Option Nat)
    (rest : List Node) : HoldsOwn f (lowerFactors target span factor anchor rest) := by
  have hname : HoldsOwn f (nextTemporary "%ssa_") := ofGentle (.ofMild (.nextTemporary _))
  induction rest generalizing factor anchor with
  | nil =>
    refine bind hname fun name => holdThen (k := fun f => { f with anchor }) rfl fun _ => ?_
    exact hold (k := id) rfl _ _ _ _ _
  | cons segment rest ih =>
    refine bind hname fun name => holdThen (k := fun f => { f with anchor }) rfl fun _ => ?_
    exact bind (pushPointers _) fun _ => ih _ _

theorem splitChain (target : Node) (segments : List Node) (span : Span) :
    HoldsOwn f (splitChain target segments span) := by
  refine bind (ofGentle .sight) fun v => ?_
  split
  · exact bind (pushPointers _) fun _ => lowerFactors _ _ _ _ _
  · exact bind (pushPointers _) fun _ => lowerFactors _ _ _ _ _
  · exact ofGentle (.ofMild (.defect _))

end HoldsOwn

namespace Sparing

/-! ## Statements with nodes -/

theorem commit (hf : Carries I known f) {n : GraphNode} (hn : n.block = f.block) :
    Spares I f (commit n) := by
  refine onlyIf (defect _) (andThen (note hf.endures _ _ _) fun _ => andThen (getBlock _) fun _ => ?_)
  apply modifySession
  intro t ht
  rw [hn]
  exact hf.code t _ (fun _ => ⟨rfl, rfl⟩) (fun _ _ => .inl rfl) ht

theorem tracking {α : Type} (node : GraphNode) {m : Lower α}
    (h : Spares I { f with isTracked := true } m) : Spares I f (tracking node m) := by
  refine andThen (modifyState fun _ => rfl) fun _ => andThen (withReader h) fun _ => ?_
  exact withState fun _ => pure trivial

theorem freshNode (hf : Carries I known f) (isTemporary : Bool) :
    Spares I f (freshNode isTemporary) := by
  refine withFrame (andThen (withSession fun s _ => ?_) fun _ => pure trivial)
  exact andThen (modifySession fun t ht => hf.uid t _ ht) fun _ => pure trivial

theorem lowerValueAndStore (hI : Endures I known f.block) (target value : Node) (isLast : Bool)
    (hstore : ∀ type, Spares I f (Lowering.assignTo target type)) :
    Spares I f (lowerValueAndStore target value isLast) := by
  have hrest (startPc endPc : Nat) (type : Ty) : Spares I f (do
      let updated ← Lowering.assignTo target (← refineType type)
      return (startPc, endPc, updated)) := by
    refine andThen (ite (withSession fun _ _ => withState fun s => ?_) (pure trivial)) fun _ => ?_
    · split <;> exact pure trivial
    · exact andThen (hstore _) fun _ => pure trivial
  refine andThen pc fun _ => andThen (expression value hI) fun type => andThen pc fun _ => ?_
  exact onlyIf (recordSplitChain hI) (hrest _ _ _)

/-- A statement with a node spares what looking ahead and the store spare. -/
theorem graphStatementWith (hf : Carries I known f) (target value : Node) (span : Span) (isTemporary isLast : Bool)
    (hprobe : Spares I f (Lowering.probe value))
    (hstore : ∀ type, Spares I { f with isTracked := true } (Lowering.assignTo target type)) :
    Sparing I f (graphStatement target value span isTemporary isLast)
      fun n => n.block = f.block := by
  have hI := hf.endures
  have hwalk : Spares I f (Lowering.graphStatement target value span isTemporary isLast) := by
    refine andThen (freshNode hf _) fun fresh => andThen hprobe fun _ => ?_
    refine andThen (tracking fresh (lowerValueAndStore (f := { f with isTracked := true }) hI _ _ _ hstore)) fun r => ?_
    refine andThen (emitSilent hI rfl _) fun _ => andThen (note hI _ _ _) fun _ => pure trivial
  intro s hs
  refine ⟨(hwalk s hs).1, fun n t hrun => ?_⟩
  exact ((makes_graphStatement _ _ _ _ _ (hf.isWatching _ hs)).node n t hrun).2.1

theorem lowerReturn (hf : Carries I known f) (value : Option Node) (span : Span) :
    Spares I f (lowerReturn value span) := by
  have hnode : Sparing I f (returnNode value span) fun n => n.block = f.block := by
    have hwalk : Spares I f (returnNode value span) := by
      refine andThen (freshNode hf _) fun fresh => ?_
      have hreturned := returnStatement (f := { f with isTracked := true }) hf.endures value span
      exact andThen (tracking fresh hreturned) fun _ => pure trivial
    intro s hs
    refine ⟨(hwalk s hs).1, fun n t hrun => ?_⟩
    exact ((makes_returnNode value span (hf.isWatching _ hs)).node n t hrun).2.1
  rw [lowerReturn_eq]
  exact bind hnode fun n hn => andThen classScope fun cls => commit hf hn

theorem patch (hf : Carries I known f) (pending target : Nat) : Spares I f (patch pending target) := by
  intro s hs
  have hw := hf.isWatching _ hs
  obtain ⟨i, j, hi, hj, hrun⟩ | ⟨d, hrun⟩ := patch_cases pending target f s
  · rw [hrun]
    refine ⟨?_, fun _ _ _ => trivial⟩
    show I (s.session.replaceCode f.block pending j)
    unfold Session.replaceCode
    rw [if_neg (by simp [hw])]
    refine hf.code _ _ (fun _ => ⟨rfl, rfl⟩) (fun b hb => .inr ⟨pending, target, i, j, ?_, hj, rfl⟩) hs
    simpa [Session.stream, hw, hb] using hi
  · rw [hrun]
    exact ⟨hs, fun _ _ _ => trivial⟩

/-- The assignment of a chain that is split spares what its factors spare. -/
theorem lowerSplitWith (hf : Carries I known f) (target chain : Node) (span : Span)
    (hsplit : ∀ segments, Spares I f (splitChain target segments span)) :
    Spares I f (lowerSplit target chain span) := by
  refine andThen (chainSegments hf.endures chain) fun segments => ?_
  intro s hs
  let start : State := { s with pointers := [], held := [] }
  have hwalk := hsplit segments start hs
  have hheld := HoldsOwn.splitChain (f := f) target segments span start (hf.isWatching _ hs)
    fun _ hn => absurd hn List.not_mem_nil
  simp only [run_bind, run_modify, run_get]
  cases hrun : Lowering.splitChain target segments span f start with
  | error e t =>
    rw [hrun] at hwalk
    exact ⟨hwalk.1, fun _ _ _ => trivial⟩
  | ok _ t =>
    rw [hrun] at hwalk hheld
    have hcommit : Spares I f (t.held.forM Lowering.commit) :=
      forM fun n hn => commit hf (hheld.2 n hn)
    exact hcommit { t with pointers := [], held := [] } hwalk.1

/-- An assignment spares what its statement spares, or its factors if the value is split. -/
theorem lowerUpdateWith (hf : Carries I known f) (target value : Node) (span : Span)
    (hsplit : ∀ segments, Spares I f (splitChain target segments span))
    (hstatement : Sparing I f (Lowering.graphStatement target value span false false) fun n => n.block = f.block) :
    Spares I f (lowerUpdate target value span) := by
  refine andThen (modifyState fun _ => rfl) fun _ => withSession fun s _ => ite ?_ ?_
  · exact lowerSplitWith hf _ _ _ hsplit
  · exact bind hstatement fun n hn => commit hf hn

section
variable (hf : Hosts I known free f)
include hf

theorem graphStatement (target value : Node) (span : Span) (isTemporary isLast : Bool) :
    Sparing I f (graphStatement target value span isTemporary isLast)
      fun n => n.block = f.block := by
  have htracked : Hosts I known free { f with isTracked := true } := hf.flags rfl
  exact graphStatementWith hf.toCarries _ _ _ _ _ (probe hf _) fun _ => assignTo htracked _ _

theorem lowerFactors (target : Node) (span : Span) (factor : Node) (anchor : Option Nat)
    (rest : List Node) : Spares I f (lowerFactors target span factor anchor rest) := by
  have hhold (n : GraphNode) : Spares I f (hold n) := modifyState fun _ => rfl
  have hstatement (anchor : Option Nat) (target value : Node) (isTemporary isLast : Bool) :
      Spares I f (MonadWithReader.withReader (fun f => { f with anchor })
        (Lowering.graphStatement target value span isTemporary isLast)) := by
    have hanchor : Hosts I known free { f with anchor } := hf.flags rfl
    exact withReader (graphStatement hanchor _ _ _ _ _).spares
  induction rest generalizing factor anchor with
  | nil =>
    refine andThen (nextTemporary hf _) fun _ => andThen (hstatement _ _ _ _ _) fun _ => ?_
    refine andThen (hhold _) fun _ => andThen (graphStatement hf _ _ _ _ _).spares fun _ => hhold _
  | cons segment rest ih =>
    refine andThen (nextTemporary hf _) fun _ => andThen (hstatement _ _ _ _ _) fun _ => ?_
    exact andThen (hhold _) fun _ => andThen (modifyState fun _ => rfl) fun _ => ih _ _

theorem splitChain (target : Node) (segments : List Node) (span : Span) :
    Spares I f (splitChain target segments span) := by
  refine andThen sight fun v => ?_
  split
  · exact andThen (modifyState fun _ => rfl) fun _ => lowerFactors hf _ _ _ _ _
  · exact andThen (modifyState fun _ => rfl) fun _ => lowerFactors hf _ _ _ _ _
  · exact defect _

theorem lowerUpdate (target value : Node) (span : Span) :
    Spares I f (lowerUpdate target value span) :=
  lowerUpdateWith hf.toCarries target value span (fun segments => splitChain hf target segments span)
    (graphStatement hf target value span false false)

theorem lowerUnnamed (node : Node) : Spares I f (lowerUnnamed node) :=
  andThen (nextTemporary hf _) fun _ => lowerUpdate hf _ _ _

/-! ## Imperative statements -/

theorem lowerAssignment (target value : Node) : Spares I f (lowerAssignment target value) := by
  refine andThen (modifyState fun _ => rfl) fun _ => andThen (expression _ hf.endures) fun _ => ?_
  exact andThen (assignTo hf _ _) fun _ => pure trivial

end

section
variable (hI : Endures I known f.block)
include hI

theorem lowerDiscarded (node : Node) : Spares I f (lowerDiscarded node) := by
  refine andThen (expression _ hI) fun _ => andThen classScope fun _ => ?_
  exact andThen (emitPop hI _ _ _) fun _ => pure trivial

theorem lowerCondition (condition : Node) (span : Span) : Spares I f (lowerCondition condition span) := by
  refine andThen (expression _ hI) fun _ => andThen classScope fun _ => ?_
  exact andThen (emitPop hI _ _ _) fun _ => pure trivial

theorem emitCjmp (condition : Operand) (holds : Nat) (span : Span) :
    Spares I f (emitCjmp condition holds span) :=
  withSession fun _ _ => ite (emitSilent hI rfl _) (emitStepping hI rfl _ _)

theorem lowerExit (keyword : String) (span : Span) (exits : Nat → Exits) :
    Spares I f (lowerExit keyword span exits) := by
  refine withFrame (onlyIf (halt hI _ _ _) ?_)
  exact andThen (emitStepping hI rfl _ _) fun _ => pure trivial

/-! ## Headers of declarations -/

theorem resolveType (type : TypeName) (span : Span) : Spares I f (resolveType type span) := by
  refine withSession fun s _ => ?_
  split
  · exact pure trivial
  · exact halt hI _ _ _

theorem resolveParams (params : List Parameter) : Spares I f (resolveParams params) := by
  induction params with
  | nil => exact pure trivial
  | cons p rest ih =>
    exact andThen (resolveType hI _ _) fun _ => andThen ih fun _ => pure trivial

theorem lowerAttributes (attributes : List Call) : Spares I f (lowerAttributes attributes) := by
  induction attributes with
  | nil => exact pure trivial
  | cons a rest ih =>
    refine withSession fun s _ => ?_
    split
    · exact andThen ih fun _ => pure trivial
    · exact andThen (report hI _ _ _) fun _ => ih

theorem resolveBase (c : ClassDecl) : Spares I f (resolveBase c) := by
  unfold Lowering.resolveBase
  split
  · exact pure trivial
  · refine withSession fun s _ => ?_
    split
    · exact pure trivial
    · exact halt hI _ _ _

end

end Sparing

end Diglot.Lowering
