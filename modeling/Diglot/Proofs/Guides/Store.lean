import Diglot.Proofs.Guides.Expression

/-! # Declarations, stores and updates without guides

What a statement does below the level of blocks is done alike whether guides are asked for or not: it declares
variables, looks ahead, stores, returns, and takes the value of a watch expression. The dependency nodes of associative
statements are the same but for the ranges of their code, and so are the nodes of a chain that is split.
-/

set_option autoImplicit false

namespace Diglot.Lowering.Lockstep

variable {α : Type} {x : Ground} {f : Frame}

/-! ## Declaring -/

theorem nextTemporary (letters : String) :
    Lockstep x f Eq (nextTemporary letters) (nextTemporary letters) := by
  refine withSession fun s t _ hst => ?_
  rw [hst.counters]
  exact after (annotate (g := fun u =>
    { u with counters := { u.counters with temporaries := s.counters.temporaries + 1 } })
    (fun _ => ⟨rfl, rfl, rfl, rfl⟩) fun _ => ⟨rfl, rfl⟩) (pure rfl)

theorem enterSymbol (id : Nat) (symbol : Symbol) :
    Lockstep x f Eq (Lowering.modifyBlock id fun b => { b with symbols := b.symbols.append symbol })
      (Lowering.modifyBlock id fun b => { b with symbols := b.symbols.append symbol }) := by
  refine modifyBlock id ?_ ?_
  · exact fun _ => rfl
  · exact fun _ => ⟨rfl, rfl, rfl⟩

theorem appendLocal (symbol : Symbol) : Lockstep x f Eq (appendLocal symbol) (appendLocal symbol) := by
  refine withFrame (andThen (getBlock _) fun b c hbc => ?_)
  rw [hbc.symbols]
  refine after (R := Eq) (modifySession (fun s t _ hst => ?_) fun s hs => ?_) (pure rfl)
  · refine hst.modifyBlock _ fun d e _ hde => ?_
    exact hde.alter (g := fun b => { b with symbols := b.symbols.append symbol }) (fun _ => rfl) fun _ => ⟨rfl, rfl, rfl⟩
  · exact hs.modifyBlock (g := fun b => { b with symbols := b.symbols.append symbol }) (fun _ => rfl) _

theorem appendMember (cls : Nat) (symbol : Symbol) :
    Lockstep x f Eq (appendMember cls symbol) (appendMember cls symbol) := by
  refine withSession fun s t _ hst => ?_
  rw [hst.classes]
  split
  · exact defect _
  · exact after (annotate (g := fun u => { u with classes := u.classes.appendSymbol cls symbol })
      (fun _ => ⟨rfl, rfl, rfl, rfl⟩) fun _ => ⟨rfl, rfl⟩) (onlyIf (enterSymbol 0 _) (pure rfl))

theorem allocate (d : Declaration) : Lockstep x f Eq (allocate d) (allocate d) := by
  refine withFrame (withSession fun s t hs hst => ?_)
  have hsymbol (bucket : Bucket) : symbolOf d t f.unguided bucket = symbolOf d s f bucket := by
    unfold symbolOf
    rw [hst.counters, hst.classes]
  dsimp only
  rw [hst.isWatching, hsymbol]
  refine after (annotate (g := fun u => { u with counters := countersAfter d u _ _ })
    (fun _ => ⟨rfl, rfl, rfl, rfl⟩) fun u => ⟨rfl, units_countersAfter d u _ _⟩) ?_
  split
  · exact appendMember _ _
  · exact appendMember _ _
  · exact appendLocal _

/-! ## Looking ahead -/

theorem declareForward (name : String) : Lockstep x f Eq (declareForward name) (declareForward name) := by
  refine withFrame (ite (withSight fun s t hst => ?_) (pure rfl))
  have hclasses : (sightFrom f.unguided t).session.classes = (sightFrom f s).session.classes := hst.classes
  rw [hst.resolve, hclasses]
  exact onlyIf (allocate _) (pure rfl)

section
variable {part : ProbePart} (hpart : ∀ n, n.Suits x.asks → Lockstep x f Eq (part n) (part n))
include hpart

theorem probeSegment (isSingle : Bool) {n : Node} (hn : n.Suits x.asks) :
    Lockstep x f Eq (probeSegment part isSingle n) (probeSegment part isSingle n) := by
  unfold Lowering.probeSegment
  cases n with
  | identifier ident =>
    have hdims : Lockstep x f Eq (ident.dims.forM part) (ident.dims.forM part) :=
      forM fun d hd => hpart d (hn.part hd)
    exact ite (after hdims (ite (declareForward _) (pure rfl))) (pure rfl)
  | call call => exact forM fun a ha => hpart a (hn.part (List.mem_append_left _ ha))
  | _ => exact pure rfl

theorem probeChain {l : List Node} (hl : ∀ n ∈ l, n.Suits x.asks) :
    Lockstep x f Eq (probeChain part l) (probeChain part l) := by
  refine onlyIf (R := Eq) (defect _) (forM fun n hn => ?_)
  obtain ⟨m, hm, rfl⟩ := List.mem_map.mp hn
  exact probeSegment hpart _ (hl m hm).unwrap

theorem probeNode {n : Node} (hn : n.Suits x.asks) : Lockstep x f Eq (probeNode part n) (probeNode part n) := by
  have hself : ∀ m ∈ [n], m.Suits x.asks := by simpa using hn
  have hparts {l : List Node} (hl : ∀ m ∈ l, m ∈ n.parts) : Lockstep x f Eq (l.forM part) (l.forM part) :=
    forM fun m hm => hpart m (hn.part (hl m hm))
  unfold Lowering.probeNode
  cases n with
  | identifier => exact probeChain hpart hself
  | call => exact probeChain hpart hself
  | member => exact chainSegments hn fun segments hsegments => probeChain hpart hsegments
  | literal => exact pure rfl
  | list => exact hparts fun _ hm => hm
  | range first last step =>
    refine after (hpart first (hn.part (.head _))) (after (hpart last (hn.part (.tail _ (.head _)))) ?_)
    exact hparts fun m hm => .tail _ (.tail _ hm)
  | unary => exact hpart _ (hn.part (.head _))
  | binary left op right span =>
    dsimp only
    split
    · exact halt _ _ _
    · exact after (hpart left (hn.part (.head _))) (hpart right (hn.part (.tail _ (.head _))))
  | group inner dims guides span =>
    have hinner : inner.Suits x.asks := hn.part (.head _)
    refine ite (hpart _ (hinner.ungroup hn.own fun d hd => hn.part (.tail _ hd))) (after (hpart inner hinner) ?_)
    exact hparts fun m hm => .tail _ hm
  | defaultArg => exact pure rfl
  | dynamic => exact pure rfl
  | _ => exact halt _ _ _

end

theorem probe {n : Node} (hn : n.Suits x.asks) : Lockstep x f Eq (probe n) (probe n) := by
  have hwithin (depth : Nat) (n : Node) (hn : n.Suits x.asks) :
      Lockstep x f Eq (probeWithin depth n) (probeWithin depth n) := by
    induction depth generalizing n with
    | zero => exact defect _
    | succ depth ih => exact probeNode ih hn
  exact hwithin _ n hn

/-! ## Storing -/

section
variable (hb : x.Bears f)
include hb

omit hb in
theorem anyExpression (g : Frame) (n : Node) (hg : x.Bears g) (hn : n.Suits x.asks) :
    Lockstep x g Eq (Lowering.expression n) (Lowering.expression n) := expression hg hn

omit hb in
theorem targetSymbol (ident : Identifier) (type : Ty) :
    Lockstep x f Eq (targetSymbol ident type) (targetSymbol ident type) := by
  refine withSight fun s t hst => ?_
  rw [hst.resolve]
  split
  · exact pure rfl
  · exact after (report _ _ _) (allocate _)
  · exact allocate _

theorem storeIdentifier (ident : Identifier) (hdims : ∀ d ∈ ident.dims, d.Suits x.asks) (type : Ty) :
    Lockstep x f Eq (storeIdentifier ident type) (storeIdentifier ident type) := by
  refine bind (targetSymbol ident type) fun r => bind (getSymbol r) fun symbol => ?_
  refine after (lowerDims anyExpression hb hdims) (ite (withFrame ?_) ?_)
  · refine after (recordIndexing _) (after (recordSplitDims _ _) ?_)
    exact after (emitStore hb _ _ _) (pure rfl)
  · exact after (emitStore hb _ _ _) (pure rfl)

theorem lowerProperty (property : Identifier) (c : Cursor) (resolution : Resolution) (span : Span) :
    Lockstep x f Eq (lowerProperty property c resolution span) (lowerProperty property c resolution span) := by
  unfold Lowering.lowerProperty
  split
  · exact bind (getSymbol _) fun _ => after (emitPushm hb _ _ _) (pure rfl)
  · exact after (report _ _ _) (after (emitPush hb _ _ _) (pure rfl))
  · refine onlyIf (warnUnbound _ _) (bind (registerLateVariable _ _) fun p => ?_)
    exact bind classScope fun _ => after (emitPushm hb _ _ _) (pure rfl)

theorem storeProperty (property : Identifier) (hdims : ∀ d ∈ property.dims, d.Suits x.asks) (c : Cursor) (span : Span) :
    Lockstep x f Eq (storeProperty property c span) (storeProperty property c span) := by
  refine withSight fun s t hst => ?_
  have hinClass (cls : Nat) : (sightFrom f.unguided t).inClass cls property.name =
      (sightFrom f s).inClass cls property.name := hst.inClass f cls property.name
  simp only [hinClass]
  refine after (lowerDims anyExpression hb hdims) (ite (after (recordIndexing _) (after (emitPushDims hb _) ?_)) ?_)
  · exact bind (lowerProperty hb _ _ _ _) fun _ => after (emitPoplist hb _ _ _) (pure rfl)
  · exact bind (lowerProperty hb _ _ _ _) fun _ => after (emitPoplist hb _ _ _) (pure rfl)

theorem storeMember (property : Identifier) (hdims : ∀ d ∈ property.dims, d.Suits x.asks) {segments : List Node}
    (hsegments : ∀ n ∈ segments, n.Suits x.asks) (span : Span) :
    Lockstep x f Eq (storeMember property segments span) (storeMember property segments span) := by
  have hunwrapped : ∀ n ∈ segments.map Node.unwrap, n.Suits x.asks := by
    intro n hn
    obtain ⟨m, hm, rfl⟩ := List.mem_map.mp hn
    exact (hsegments m hm).unwrap
  have huntracked : x.Bears { f with isTracked := false } := ⟨hb.dialect, hb.guided⟩
  have hchain : Lockstep x f Eq
      (untracked (Lowering.lowerSegments Lowering.expression false (segments.map Node.unwrap) (.start false)))
      (untracked (Lowering.lowerSegments Lowering.expression false (segments.map Node.unwrap) (.start false))) :=
    withReader rfl (lowerSegments anyExpression huntracked false hunwrapped _)
  refine bind hchain fun c => withSight fun s t hst => ?_
  have hsetter : setter? (sightFrom f.unguided t) c.receiver? property = setter? (sightFrom f s) c.receiver? property := by
    have hclasses : (sightFrom f.unguided t).session.classes = (sightFrom f s).session.classes := hst.classes
    unfold setter?
    rw [hclasses]
    rfl
  rw [hsetter]
  refine ite (after (emitPoplist hb _ _ _) (pure rfl)) ?_
  split
  · exact after (emitCallTo hb _ _ _ _) (pure rfl)
  · exact storeProperty hb property hdims c span

theorem assignTo {target : Node} (htarget : target.Suits x.asks) (type : Ty) :
    Lockstep x f Eq (assignTo target type) (assignTo target type) := by
  have hinvalid (span : Span) : Lockstep x f Eq (Lowering.assignTo.invalid span) (Lowering.assignTo.invalid span) :=
    halt _ _ _
  unfold Lowering.assignTo
  cases target with
  | identifier ident => exact ite (hinvalid _) (storeIdentifier hb ident (fun d hd => htarget.part hd) type)
  | member =>
    refine chainSegments htarget fun segments hsegments => ?_
    split
    · exact defect _
    · next property hlast =>
      refine storeMember hb property (fun d hd => ?_) (fun n hn => hsegments n (List.dropLast_subset _ hn)) _
      exact (hsegments _ (List.mem_of_getLast? hlast)).part hd
    · exact halt _ _ _
  | _ => exact hinvalid _

/-! ## Returning -/

omit hb in
theorem currentProcedure? : Lockstep x f Eq currentProcedure? currentProcedure? := by
  refine withSession fun s t _ hst => withFrame (pure ?_)
  have hprocedure : t.procedure? = s.procedure? := funext hst.sameNames.procedure?_eq
  rw [hprocedure]

theorem checkReturned (procedure : Option Procedure) (type : Ty) (span : Span) :
    Lockstep x f Eq (checkReturned procedure type span) (checkReturned procedure type span) := by
  unfold Lowering.checkReturned
  split
  · exact pure rfl
  · refine withSession fun s t _ hst => ?_
    rw [hst.classes]
    refine ite (after (report _ _ _) (after (emitPop hb _ _ _) ?_)) (pure rfl)
    exact after (emitPush hb _ _ _) (pure rfl)

/-- The range of the value is written down in the node. -/
theorem lowerRanged {value : Option Node} (hvalue : ∀ n, value = some n → n.Suits x.asks) (procedure : Option Procedure)
    (span : Span) :
    Lockstep x f Eq (finishReturn value span procedure) (finishReturn value span procedure) := by
  have hreturned : Lockstep x f Eq (lowerReturned value span) (lowerReturned value span) := by
    unfold lowerReturned
    split
    · next n => exact expression hb (hvalue n rfl)
    · exact after (emitPush hb _ _ _) (pure rfl)
  refine andThen (pc hb) fun _ _ _ => bind hreturned fun type => andThen (pc hb) fun _ _ _ => ?_
  refine after (modifyNodes fun _ _ h => h) (after (checkReturned hb _ _ _) ?_)
  exact after (emitResult hb _) (pure rfl)

theorem returnStatement {value : Option Node} (hvalue : ∀ n, value = some n → n.Suits x.asks) (span : Span) :
    Lockstep x f Eq (returnStatement value span) (returnStatement value span) := by
  refine bind currentProcedure? fun procedure => ?_
  split
  · exact onlyIf (R := Eq) (halt _ _ _) (lowerRanged hb hvalue _ _)
  · exact lowerRanged hb hvalue _ _

theorem closeUnit (unit : List Node) : Lockstep x f Eq (closeUnit unit) (closeUnit unit) := by
  refine withFrame (ite (after (emitLeave hb) (pure rfl)) (ite (pure rfl) (bind currentProcedure? fun p => ite ?_ ?_)))
  · exact after (emitPush hb _ _ _) (after (emitResult hb _) (pure rfl))
  · exact after (emitPush hb _ _ _) (after (emitResult hb _) (pure rfl))

/-! ## Watching -/

/-- The code of a watch expression is put behind that of the others, which is not as long in both runs. -/
theorem lowerWatch {n : Node} (hn : n.Suits x.asks) :
    Lockstep x f (fun _ _ => True) (lowerWatch n) (lowerWatch n) := by
  refine andThen (pc hb) fun _ _ _ => bind (expression hb hn) fun _ => bind (nextTemporary _) fun name => ?_
  refine bind (allocate _) fun r => bind (getSymbol r) fun symbol => after (emitSilent hb rfl _) ?_
  exact after (emit hb rfl _) (pure trivial)

end

end Diglot.Lowering.Lockstep

namespace Diglot

open Lowering

/-! ## Dependency nodes -/

/-- The nodes are the same but for their ranges. -/
abbrev GraphNode.Alike (n m : GraphNode) : Prop := m.placeless = n.placeless

theorem Block.Fewer.pushNode {b c : Block} (h : b.Fewer c) {n m : GraphNode} (hnm : n.Alike m) :
    ({ b with graph := b.graph.push n } : Block).Fewer { c with graph := c.graph.push m } := by
  have hpush (d : Block) (k : GraphNode) : ({ d with graph := d.graph.push k } : Block).outline =
      { d.outline with graph := d.outline.graph.push k.placeless } := by
    unfold Block.outline
    rw [Array.map_push]
  refine h.aside (g := fun d => { d with graph := d.graph.push n }) (k := fun d => { d with graph := d.graph.push m }) ?_
    ⟨rfl, rfl, rfl⟩ ⟨rfl, rfl⟩
  rw [hpush, hpush, h.outline, hnm]

theorem Session.Fewer.splitAnchor? {s t : Session} (h : s.Fewer t) (f : Frame) (segments : List Node) :
    Lowering.splitAnchor? (sightFrom f.unguided t) segments = Lowering.splitAnchor? (sightFrom f s) segments := by
  have hclasses : (sightFrom f.unguided t).session.classes = (sightFrom f s).session.classes := h.classes
  unfold Lowering.splitAnchor?
  simp only [h.resolve f, hclasses]

namespace Lowering.Lockstep

variable {α β : Type} {x : Ground} {f : Frame}

/-! ## Making and committing nodes -/

theorem nextUid : Lockstep x f Eq nextUid nextUid := by
  refine withSession fun s t _ hst => ?_
  rw [hst.nextUid]
  exact after (annotate (g := fun u => { u with nextUid := s.nextUid + 1 }) (fun _ => ⟨rfl, rfl, rfl, rfl⟩)
    fun _ => ⟨rfl, rfl⟩) (pure rfl)

theorem freshNode (isTemporary : Bool) : Lockstep x f Eq (freshNode isTemporary) (freshNode isTemporary) :=
  withFrame (bind nextUid fun _ => pure rfl)

theorem tracking {R : α → β → Prop} {m : Lower α} {n : Lower β} (node : GraphNode)
    (h : Lockstep x { f with isTracked := true } R m n) :
    Lockstep x f (fun a b => R a.1 b.1 ∧ a.2.Alike b.2) (tracking node m) (tracking node n) := by
  refine after (R := Eq) (modifyState (fun s t hst => ?_) fun _ => rfl) ?_
  · exact ⟨hst.session, rfl, hst.held, hst.pointers, hst.lastCallee⟩
  · exact andThen (withReader rfl h) fun a b hab => withState fun s t hst => pure ⟨hab, hst.node⟩

theorem commit {n m : GraphNode} (hnm : n.Alike m) : Lockstep x f Eq (commit n) (commit m) := by
  have hsealed : m.isSealed = n.isSealed := (congrArg GraphNode.isSealed hnm :)
  have huid : m.uid = n.uid := (congrArg GraphNode.uid hnm :)
  have hblock : m.block = n.block := (congrArg GraphNode.block hnm :)
  unfold Lowering.commit
  rw [hsealed, huid, hblock]
  refine onlyIf (R := Eq) (defect _) (after (note _ _ _ _) (modifyBlocks _ (fun b c hbc => ?_) fun _ => rfl))
  refine hbc.pushNode ?_
  exact (congrArg (fun k : GraphNode => { k with uid := n.uid, block := n.block, isSealed := true }) hnm :)

theorem commitAll {l l' : List GraphNode} (h : l'.map GraphNode.placeless = l.map GraphNode.placeless) :
    Lockstep x f Eq (l.forM Lowering.commit) (l'.forM Lowering.commit) := by
  induction l generalizing l' with
  | nil =>
    rw [List.map_eq_nil_iff.mp h]
    exact pure rfl
  | cons n rest ih =>
    obtain ⟨m, rest', rfl, hnm, hrest⟩ := List.map_eq_cons_iff.mp h
    exact bind (commit hnm) fun _ => ih hrest

theorem hold {n m : GraphNode} (hnm : n.Alike m) : Lockstep x f Eq (hold n) (hold m) := by
  refine modifyState (fun s t hst => ⟨hst.session, hst.node, ?_, hst.pointers, hst.lastCallee⟩) fun _ => rfl
  rw [List.map_append, List.map_append, hst.held]
  exact congrArg (_ ++ [·]) hnm

/-! ## Statements with a node -/

theorem forgetCallee : Lockstep x f Eq (modify fun s => { s with lastCallee := none } : Lower Unit)
    (modify fun s => { s with lastCallee := none } : Lower Unit) :=
  modifyState (fun _ _ hst => ⟨hst.session, hst.node, hst.held, hst.pointers, rfl⟩) fun _ => rfl

theorem refineType (type : Ty) : Lockstep x f Eq (refineType type) (refineType type) := by
  refine ite (withSession fun s t _ hst => withState fun u v huv => ?_) (pure rfl)
  have hprocedure : t.procedure? = s.procedure? := funext hst.sameNames.procedure?_eq
  rw [huv.lastCallee, hprocedure]
  split
  · exact pure rfl
  · exact pure rfl

section
variable (hb : x.Bears f)
include hb

/-- What is written is the same, and its range need not be. -/
theorem lowerValueAndStore {target value : Node} (htarget : target.Suits x.asks) (hvalue : value.Suits x.asks) (isLast : Bool) :
    Lockstep x f (fun a b => b.2.2 = a.2.2) (lowerValueAndStore target value isLast)
      (lowerValueAndStore target value isLast) := by
  refine andThen (pc hb) fun _ _ _ => bind (expression hb hvalue) fun type => andThen (pc hb) fun _ _ _ => ?_
  refine onlyIf recordSplitChain (bind (refineType type) fun refined => ?_)
  exact bind (assignTo hb htarget refined) fun path => pure rfl

theorem graphStatement {target value : Node} (htarget : target.Suits x.asks) (hvalue : value.Suits x.asks) (span : Span)
    (isTemporary isLast : Bool) :
    Lockstep x f GraphNode.Alike (graphStatement target value span isTemporary isLast)
      (graphStatement target value span isTemporary isLast) := by
  have htracked : x.Bears { f with isTracked := true } := ⟨hb.dialect, hb.guided⟩
  refine bind (freshNode isTemporary) fun fresh => bind (probe hvalue) fun _ => ?_
  refine andThen (tracking fresh (lowerValueAndStore htracked htarget hvalue isLast)) fun a b hab => ?_
  obtain ⟨hpath, hnode⟩ := hab
  refine after (emitSilent hb rfl _) (after (note _ _ _ _) (pure ?_))
  rw [hpath]
  exact (congrArg (fun k : GraphNode => { k with updated := some a.1.2.2 }) hnode :)

theorem lowerFactors {target factor : Node} (htarget : target.Suits x.asks) (hfactor : factor.Suits x.asks) {rest : List Node}
    (hrest : ∀ n ∈ rest, n.Suits x.asks) (span : Span) (anchor : Option Nat) :
    Lockstep x f Eq (lowerFactors target span factor anchor rest) (lowerFactors target span factor anchor rest) := by
  have hanchored (anchor : Option Nat) : x.Bears { f with anchor } := ⟨hb.dialect, hb.guided⟩
  induction rest generalizing factor anchor with
  | nil =>
    refine bind (nextTemporary _) fun name => ?_
    refine andThen (withReader rfl (graphStatement (hanchored anchor) (.plain name span) hfactor span true true))
      fun n m hnm => ?_
    refine bind (hold hnm) fun _ => ?_
    exact andThen (graphStatement hb htarget (.plain name span) span false false) fun n m hnm => hold hnm
  | cons segment rest ih =>
    have hsegment : segment.Suits x.asks := hrest segment (List.mem_cons_self ..)
    refine bind (nextTemporary _) fun name => ?_
    refine andThen (withReader rfl (graphStatement (hanchored anchor) (.plain name span) hfactor span true false))
      fun n m hnm => ?_
    refine bind (hold hnm) fun _ => after (R := Eq) (modifyState (fun s t hst => ?_) fun _ => rfl) ?_
    · exact ⟨hst.session, hst.node, hst.held, congrArg (· ++ [segment]) hst.pointers, hst.lastCallee⟩
    · exact ih (.join (.plain name span) hsegment) (fun n hn => hrest n (List.mem_cons_of_mem segment hn)) none

theorem splitChain {target : Node} (htarget : target.Suits x.asks) {segments : List Node}
    (hsegments : ∀ n ∈ segments, n.Suits x.asks) (span : Span) :
    Lockstep x f Eq (splitChain target segments span) (splitChain target segments span) := by
  have hpointers (l : List Node) : Lockstep x f Eq (pushPointers l) (pushPointers l) :=
    modifyState (fun s t hst => ⟨hst.session, hst.node, hst.held, congrArg (· ++ l) hst.pointers, hst.lastCallee⟩)
      fun _ => rfl
  refine withSight fun s t hst => ?_
  rw [hst.splitAnchor?]
  split
  · next cls root second rest _ =>
    have hroot := hsegments root (.head _)
    have hsecond := hsegments second (.tail _ (.head _))
    refine bind (hpointers _) fun _ => ?_
    exact lowerFactors hb htarget (.join hroot hsecond) (fun n hn => hsegments n (.tail _ (.tail _ hn))) span _
  · next root rest _ =>
    refine bind (hpointers _) fun _ => ?_
    exact lowerFactors hb htarget (hsegments root (.head _)) (fun n hn => hsegments n (.tail _ hn)) span _
  · exact defect _

theorem lowerSplit {target chain : Node} (htarget : target.Suits x.asks) (hchain : chain.Suits x.asks) (span : Span) :
    Lockstep x f Eq (lowerSplit target chain span) (lowerSplit target chain span) := by
  have hclear : Lockstep x f Eq (modify fun s => { s with pointers := [], held := [] } : Lower Unit)
      (modify fun s => { s with pointers := [], held := [] } : Lower Unit) :=
    modifyState (fun s t hst => ⟨hst.session, hst.node, rfl, rfl, hst.lastCallee⟩) fun _ => rfl
  refine chainSegments hchain fun segments hsegments => bind hclear fun _ => ?_
  refine bind (splitChain hb htarget hsegments span) fun _ => withState fun s t hst => ?_
  exact bind hclear fun _ => commitAll hst.held

/-! ## Statements -/

theorem lowerUpdate {target value : Node} (htarget : target.Suits x.asks) (hvalue : value.Suits x.asks) (span : Span) :
    Lockstep x f Eq (lowerUpdate target value span) (lowerUpdate target value span) := by
  refine bind forgetCallee fun _ => withSession fun s t _ hst => ?_
  have hsplit : isSplit t.options value = isSplit s.options value := by
    rw [hst.options]
    cases value <;> rfl
  rw [hsplit]
  refine ite (lowerSplit hb htarget hvalue span) ?_
  exact andThen (graphStatement hb htarget hvalue span false false) fun n m hnm => commit hnm

theorem lowerReturn {value : Option Node} (hvalue : ∀ n, value = some n → n.Suits x.asks) (span : Span) :
    Lockstep x f Eq (lowerReturn value span) (lowerReturn value span) := by
  have htracked : x.Bears { f with isTracked := true } := ⟨hb.dialect, hb.guided⟩
  refine bind (freshNode false) fun fresh => ?_
  refine andThen (tracking fresh (returnStatement htracked hvalue span)) fun a b hab => bind classScope fun cls => ?_
  refine commit ?_
  exact (congrArg (fun k : GraphNode => { k with updated := some (returnPath cls) }) hab.2 :)

theorem lowerUnnamed {n : Node} (hn : n.Suits x.asks) : Lockstep x f Eq (lowerUnnamed n) (lowerUnnamed n) :=
  bind (nextTemporary _) fun name => lowerUpdate hb (.plain name n.span) hn n.span

end

theorem mayDeclareClass : Lockstep x f Eq mayDeclareClass mayDeclareClass := by
  refine withFrame (andThen (getBlock _) fun b c hbc => pure ?_)
  rw [hbc.kind]

end Lowering.Lockstep

end Diglot
