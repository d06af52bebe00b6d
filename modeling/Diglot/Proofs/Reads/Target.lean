import Diglot.Proofs.Paths.Matching

/-! # The dependencies of a statement are also the variables that its target reads

The target of an assignment is lowered in two parts: the segments before the last one, whose reads are not
recorded, and the subscripts of the last one, whose reads are. `storing` lowers a target like `assignTo` does, but
either part in a way of its own; with `recording` for one of them it remembers what is lowered there.

A statement depends on the variables that its value reads and on those that the subscripts of the last segment of
its target read (`target_reads`). So what the segments before read is lost (`subscript_in_prefix_lost`).
-/

set_option autoImplicit false

namespace Diglot.Lowering

/-! ## What is lowered for a target -/

section
variable (before last : LowerPart)

/-- Stores into a plain name. -/
def storingIdentifier (ident : Identifier) (type : Ty) : Lower Path := do
  let r ← targetSymbol ident type
  let symbol ← getSymbol r
  lowerDims last ident.dims
  let dims := ident.dims.length
  if 0 < dims then
    let literals := literalDims (← read).dialect ident.dims
    recordIndexing literals
    recordSplitDims literals true
  let _ ← emitStore symbol dims ident.span
  return [.ofName ident.name (some r) symbol.classScope]

/-- Stores into a member that the segments so far lead to, without a setter. -/
def storingProperty (property : Identifier) (c : Cursor) (span : Span) : Lower Path := do
  let v ← sight
  let resolution :=
    match c.receiver? with
    | some cls => v.inClass cls property.name
    | none => .unbound
  lowerDims last property.dims
  let dims := property.dims.length
  if 0 < dims then
    recordIndexing (literalDims v.frame.dialect property.dims)
    let _ ← emitPushDims dims
  let c ← lowerProperty property c resolution span
  let _ ← emitPoplist (c.depth + 1) v.frame.scope.classScope span
  return c.path

/-- Stores into a member behind the given segments. -/
def storingMember (property : Identifier) (segments : List Node) (span : Span) : Lower Path := do
  let c ← untracked (lowerSegments before false (segments.map Node.unwrap) (.start false))
  let v ← sight
  if c.isStopped then
    let _ ← emitPoplist c.depth v.frame.scope.classScope span
    return c.path
  match setter? v c.receiver? property with
  | some r =>
    let _ ← emitCallTo .call r c.depth span
    return (c.track (.ofName property.name none r.classScope)).path
  | none => storingProperty last property c span

/-- Stores into a target, with the segments before the last one and the subscripts of the last one lowered in the
given ways. -/
def storing (target : Node) (type : Ty) : Lower Path :=
  match target with
  | .identifier ident =>
    if ident.isThis then assignTo.invalid ident.span else storingIdentifier last ident type
  | .member .. => do
    let segments ← chainSegments target
    match segments.getLast? with
    | none => defect .emptyChain
    | some (.identifier property) => storingMember before last property segments.dropLast target.span
    | some _ =>
      halt .invalidAssignmentTarget
        "The last segment of an assigned member access must be an identifier." target.span
  | other => assignTo.invalid other.span

end

/-- Lowers the value of a statement whose node is new, as far as the store. -/
def lowerValue (value : Node) : Lower Ty := do
  let fresh ← freshNode false
  probe value
  return (← tracking fresh (expression value)).1

/-- One of the expressions is a chain that begins at the symbol. -/
def Sight.ReadIn (v : Sight) (nodes : List Node) (r : SymbolRef) : Prop := ∃ m ∈ nodes, v.readBy? m = some r

/-- The expressions that are lowered in the segments of a target before the last one. -/
def loweredBefore (target : Node) (type : Ty) (f : Frame) (s : State) : List Node :=
  (ending (storing recording expression target type f { s with pointers := [] })).pointers

/-- The expressions that are lowered in the subscripts of the last segment of a target. -/
def loweredLast (target : Node) (type : Ty) (f : Frame) (s : State) : List Node :=
  (ending (storing expression recording target type f { s with pointers := [] })).pointers

theorem mild_recording (node : Node) : Mild false true (expression node) (recording node) :=
  mild_recordingWithin node.weight node

/-! ## Remembering changes nothing else -/

namespace Mild

section
variable {before last : LowerPart} (hlast : ∀ n, Mild false true (Lowering.expression n) (last n))
include hlast

theorem storingIdentifier (ident : Identifier) (type : Ty) :
    Mild false false (Lowering.storeIdentifier ident type)
      (Lowering.storingIdentifier last ident type) := by
  refine bind (targetSymbol _ _) fun r => bind (getSymbol r) fun symbol => ?_
  refine bind (lowerDims hlast _) fun _ => ite ?_ ?_
  · refine bind read fun f => bind (recordIndexing _) fun _ => ?_
    exact bind (recordSplitDims _ _) fun _ => bind (emitStore _ _ _) fun _ => pure _
  · exact bind (emitStore _ _ _) fun _ => pure _

theorem storingProperty (property : Identifier) (c : Cursor) (span : Span) :
    Mild false false (Lowering.storeProperty property c span)
      (Lowering.storingProperty last property c span) := by
  refine withSight (fun v => ?_) fun v => ?_
  · simp only [v.inClass_erase]
    rfl
  · refine bind (lowerDims hlast _) fun _ => ite ?_ ?_
    · refine bind (recordIndexing _) fun _ => bind (emitPushDims _) fun _ => ?_
      exact bind (lowerProperty _ _ _ _) fun _ => bind (emitPoplist _ _ _) fun _ => pure _
    · exact bind (lowerProperty _ _ _ _) fun _ => bind (emitPoplist _ _ _) fun _ => pure _

variable (hbefore : ∀ n, Mild false true (Lowering.expression n) (before n))
include hbefore

theorem storingMember (property : Identifier) (segments : List Node) (span : Span) :
    Mild false false (Lowering.storeMember property segments span)
      (Lowering.storingMember before last property segments span) := by
  have hsegments := lowerSegments hbefore false (segments.map Node.unwrap) (Cursor.start false)
  refine bind (withReader ?_ hsegments) fun c => withSight (fun _ => rfl) fun v => ?_
  · exact fun _ => rfl
  · refine ite (bind (emitPoplist _ _ _) fun _ => pure _) ?_
    cases setter? v c.receiver? property with
    | some r => exact bind (emitCallTo _ _ _ _) fun _ => pure _
    | none => exact storingProperty hlast _ _ _

theorem storing (target : Node) (type : Ty) :
    Mild false false (Lowering.assignTo target type) (Lowering.storing before last target type) := by
  unfold Lowering.assignTo Lowering.storing
  cases target with
  | identifier ident => exact ite (halt _ _ _) (storingIdentifier hlast _ _)
  | member left right op lastFactor span =>
    refine bind (chainSegments _) fun segments => ?_
    cases segments.getLast? with
    | none => exact defect _
    | some segment =>
      cases segment with
      | identifier property => exact storingMember hlast hbefore _ _ _
      | _ => exact halt _ _ _
  | _ => exact halt _ _ _

end

end Mild

/-- The target is stored into in the same way if some of its parts are remembered. -/
theorem storing_ok {before last : LowerPart} (hlast : ∀ n, Mild false true (expression n) (last n))
    (hbefore : ∀ n, Mild false true (expression n) (before n)) {f : Frame} {s t : State} {target : Node} {type : Ty}
    {path : Path} (hrun : assignTo target type f s = .ok path t) :
    ∃ parts, storing before last target type f { s with pointers := [] } = .ok path { t with pointers := parts } := by
  have hsame := (Mild.storing hlast hbefore target type).same f s { s with pointers := [] } rfl
  rw [hrun] at hsame
  cases hstored : storing before last target type f { s with pointers := [] } with
  | error e u =>
    rw [hstored] at hsame
    cases hsame
  | ok path' u =>
    rw [hstored] at hsame
    obtain ⟨hpath, hstate⟩ := EStateM.Result.ok.inj hsame
    exact ⟨u.pointers, by rw [hpath, State.eq_of_trimmed hstate]⟩

/-! ## What the node gains -/

theorem reads_foldl_addDim (literals : List Segment) (n : GraphNode) (r : SymbolRef) :
    (literals.foldl GraphNode.addDim n).Reads r ↔ n.Reads r := by
  induction literals generalizing n with
  | nil => rfl
  | cons literal rest ih => exact ih (n.addDim literal)

namespace Tracks

variable {v : Sight} {α : Type} {Q : α → Prop}

theorem recordIndexing (literals : List Segment) : Tracks v none (recordIndexing literals) fun _ => True := by
  intro b s a t hs hrun
  cases htracked : v.frame.isTracked with
  | true =>
    simp only [Lowering.recordIndexing, run_bind, run_read, run_ite, htracked, if_true, run_modifyNode] at hrun
    cases hrun
    refine ⟨.refl _, trivial, [], (List.append_nil _).symm, fun r => ?_⟩
    exact (reads_foldl_addDim literals _ r).trans (by simp [GraphNode.Reads])
  | false =>
    simp only [Lowering.recordIndexing, run_bind, run_read, run_ite, htracked, Bool.false_eq_true, if_false] at hrun
    cases hrun
    exact ⟨.refl _, trivial, .ofSame rfl rfl⟩

/-- Where reads are not recorded, nothing is gained, whatever is read. -/
theorem unrecorded {x : Option SymbolRef} {m : Lower α} (hv : v.frame.isTracked = false) (h : Tracks v x m Q) :
    Tracks v none m Q := by
  intro b s a t hs hrun
  obtain ⟨hnames, ha, parts, hparts, hreads⟩ := h b s a t hs hrun
  exact ⟨hnames, ha, parts, hparts, fun r => by simp [hreads, hv]⟩

theorem expressionWithin (hv : v.LooksAround) (htracked : v.frame.isTracked = false) (depth : Nat) (node : Node) :
    Tracks v none (expressionWithin depth node) fun _ => True := by
  induction depth generalizing node with
  | zero => exact throw _
  | succ depth ih => exact unrecorded htracked (lowerNode ih hv node)

/-- What is read untracked does not count, if it is not remembered either. -/
theorem untracked {m : Lower α} (hm : ∀ f s a t, m f s = .ok a t → t.pointers = s.pointers)
    (h : Tracks { v with frame := { v.frame with isTracked := false } } none m Q) :
    Tracks v none (untracked m) Q := by
  intro b s a t hs hrun
  obtain ⟨hnames, ha, parts, hparts, hreads⟩ := h b s a t hs hrun
  obtain rfl : parts = [] := by
    have hkept := hm _ _ _ _ hrun
    rw [hkept] at hparts
    simpa using hparts
  exact ⟨hnames, ha, [], hparts, fun r => by simp [hreads]⟩

/-- Whatever the segments are, no more is gained than what their parts gain. -/
theorem walk (hv : v.LooksAround) {part : LowerPart} (hpart : ∀ n, Tracks v none (part n) fun _ => True)
    (isRoot : Bool) (segments : List Node) (c : Cursor) :
    Tracks v none (Lowering.lowerSegments part isRoot segments c) fun _ => True := by
  induction segments generalizing isRoot c with
  | nil => exact pure trivial
  | cons segment rest ih =>
    exact ite (pure trivial) (bind (lowerSegment hv hpart isRoot segment c) fun d _ => ih false d)

section
variable {last : LowerPart} (hlast : ∀ n, Tracks v none (last n) fun _ => True) (hv : v.LooksAround)
include hlast

/-- Behind the place of a plain name only its subscripts are read. -/
theorem storingDims (ident : Identifier) (r : SymbolRef) :
    Tracks v none (do
      let symbol ← getSymbol r
      Lowering.lowerDims last ident.dims
      let dims := ident.dims.length
      if 0 < dims then
        let literals := literalDims (← read).dialect ident.dims
        Lowering.recordIndexing literals
        Lowering.recordSplitDims literals true
      let _ ← emitStore symbol dims ident.span
      return ([.ofName ident.name (some r) symbol.classScope] : Path)) fun _ => True := by
  refine after (.getSymbol r) fun symbol => bind (lowerDims hlast _) fun _ _ => ite ?_ ?_
  · refine after .read fun f => bind (recordIndexing _) fun _ _ => bind (recordSplitDims _ _) fun _ _ => ?_
    exact after (.emitStore _ _ _) fun _ => pure trivial
  · exact after (.emitStore _ _ _) fun _ => pure trivial

include hv

theorem storingProperty (property : Identifier) (c : Cursor) (span : Span) :
    Tracks v none (storingProperty last property c span) fun _ => True := by
  refine withSight hv fun b s _ => bind (lowerDims hlast _) fun _ _ => ?_
  have hrest (resolution : Resolution) : Tracks v none (do
      let c ← lowerProperty property c resolution span
      let _ ← emitPoplist (c.depth + 1) v.frame.scope.classScope span
      return c.path) fun _ => True :=
    after (.lowerProperty _ _ _ _) fun _ => after (.emitPoplist _ _ _) fun _ => pure trivial
  refine ite (bind (recordIndexing _) fun _ _ => after (.emitPushDims _) fun _ => ?_) ?_
  · exact hrest _
  · exact hrest _

theorem storingMember {before : LowerPart}
    (hbefore : ∀ n, Tracks { v with frame := { v.frame with isTracked := false } } none (before n) fun _ => True)
    (hkeeps : ∀ segments f s c t,
      Lowering.lowerSegments before false segments (.start false) f s = .ok c t → t.pointers = s.pointers)
    (property : Identifier) (segments : List Node) (span : Span) :
    Tracks v none (storingMember before last property segments span) fun _ => True := by
  have hsegments := walk (v := { v with frame := { v.frame with isTracked := false } }) ⟨hv.blocks⟩ hbefore false
    (segments.map Node.unwrap) (.start false)
  refine bind (untracked (hkeeps _) hsegments) fun c _ => withSight hv fun b s _ => ite ?_ ?_
  · exact after (.emitPoplist _ _ _) fun _ => pure trivial
  · split
    · exact after (.emitCallTo _ _ _ _) fun _ => pure trivial
    · exact storingProperty hlast hv _ _ _

end

end Tracks

/-! ## The target of a statement -/

variable {f : Frame} {s t : State} {target value : Node} {type : Ty} {path : Path} {span : Span} {n : GraphNode}
  {r : SymbolRef}

theorem Sight.readBy?_sightFrom {a b : Session} (h : a.SameNames b) (f : Frame) (n : Node) :
    (sightFrom f b).readBy? n = (sightFrom f a).readBy? n := by
  have hroot (name : String) : (sightFrom f b).rootSymbol? name = (sightFrom f a).rootSymbol? name := by
    have htarget : (sightFrom f b).rootTarget name = (sightFrom f a).rootTarget name := by
      have hcongr := rootTarget_congr (v := sightFrom f a) h f.isGuided name
      unfold sightFrom at hcongr ⊢
      rw [h.enclosing?_eq]
      exact hcongr
    unfold rootSymbol?
    rw [htarget, resolve_sightFrom h]
  unfold readBy? rootOf?
  simp only [hroot]

theorem tracks_recording {v : Sight} (hv : v.LooksAround) (node : Node) :
    Tracks v none (recording node) fun _ => True := .recordingWithin hv node.weight node

/-- What is gained where a target is stored into is what the subscripts of its last segment read. -/
theorem storing_reads (htracked : f.isTracked = true) (hs : s.pointers = [])
    (hrun : storing expression recording target type f s = .ok path t) (r : SymbolRef) :
    t.node.Reads r ↔ s.node.Reads r ∨ (sightFrom f t.session).ReadIn t.pointers r := by
  have hgains {u : State} (hp : u.pointers = []) (hnode : u.node = s.node) {m : Lower Path}
      (hm : Tracks (sightFrom f u.session) none m fun _ => True) (hrun : m f u = .ok path t) :
      t.node.Reads r ↔ s.node.Reads r ∨ (sightFrom f t.session).ReadIn t.pointers r := by
    obtain ⟨hnames, -, parts, hparts, hreads⟩ := hm f.isGuided u path t (.refl _) hrun
    rw [hp, List.nil_append] at hparts
    rw [hreads, hnode, hparts]
    have hsame (m : Node) : (sightFrom f t.session).readBy? m = (sightFrom f u.session).readBy? m :=
      Sight.readBy?_sightFrom hnames f m
    have hrecorded : (sightFrom f u.session).frame.isTracked = true := htracked
    simp [Sight.ReadIn, hsame, hrecorded]
  cases target with
  | identifier ident =>
    change (if ident.isThis then assignTo.invalid ident.span else storingIdentifier recording ident type) f s = _
      at hrun
    rw [run_ite] at hrun
    split at hrun
    · cases hrun
    obtain ⟨r', u, htarget, hrun⟩ := bind_eq_ok.mp hrun
    have hp : u.pointers = [] := ((Mild.targetSymbol ident type).keeps_ok htarget).pointers.trans hs
    exact hgains hp (targetSymbol_node htarget)
      (.storingDims (tracks_recording (v := sightFrom f u.session) ⟨rfl⟩) ident r') hrun
  | member left right op lastFactor span =>
    obtain ⟨segments, u, hsegments, hrun⟩ := bind_eq_ok.mp hrun
    obtain ⟨-, rfl⟩ := chainSegments_run hsegments
    cases hlast : segments.getLast? with
    | none =>
      rw [hlast] at hrun
      cases hrun
    | some segment =>
      rw [hlast] at hrun
      cases segment with
      | identifier property =>
        refine hgains hs rfl (Tracks.storingMember (tracks_recording ⟨rfl⟩) ⟨rfl⟩ (fun n => ?_) ?_ _ _ _) hrun
        · exact .expressionWithin ⟨rfl⟩ rfl n.weight n
        · intro segments g a c b hwalk
          exact ((Mild.lowerSegments (fun n => .expression n) false segments (.start false)).keeps_ok hwalk).pointers
      | _ => cases hrun
  | _ => cases hrun

theorem assignTo_reads (htracked : f.isTracked = true) (hrun : assignTo target type f s = .ok path t) :
    t.node.Reads r ↔ s.node.Reads r ∨ (sightFrom f t.session).ReadIn (loweredLast target type f s) r := by
  have hbefore (n : Node) : Mild false true (expression n) (expression n) := .expression n
  obtain ⟨parts, hstored⟩ := storing_ok (fun n => mild_recording n) hbefore hrun
  have hreads := storing_reads htracked rfl hstored r
  unfold loweredLast
  rw [hstored]
  exact hreads

/-- What the node of a statement depends on was read by the value or by the subscripts of the last segment of the
target. -/
theorem graphStatement_reads (hrun : graphStatement target value span false false f s = .ok n t) :
    ∃ type w, lowerValue value f s = .ok type w ∧ ∀ r, n.Reads r ↔ w.node.Reads r ∨
      (sightFrom f t.session).ReadIn (loweredLast target (w.refined type) { f with isTracked := true } w) r := by
  obtain ⟨v, type, w, w', path, x, _, _, hprobe, hvalue, -, hkeep, hstore, hkept, rfl⟩ := graphStatement_ok hrun
  obtain rfl := hkeep rfl
  refine ⟨type, w', ?_, fun r => ?_⟩
  · unfold openNode at hvalue
    simp only [lowerValue, run_bind, run_freshNode, hprobe, run_tracking, hvalue, run_pure]
  · have hstored := assignTo_reads (r := r) (f := { f with isTracked := true }) rfl hstore
    unfold Sight.ReadIn at hstored ⊢
    simp only [Sight.readBy?_sightFrom (hkept.inert rfl).1]
    exact hstored

/-- The node of an assignment depends on what its value reads and on what the subscripts of the last segment of its
target read. So all that is read while the target is lowered is an input of the statement if and only if what the
segments before the last one read is read there as well, or by the value. -/
theorem target_reads (hrun : lowerUpdate target value span f s = .ok () t) :
    ∃ value' s' n u type w, graphStatement target value' span false false f s' = .ok n u ∧
      t.session.lastNode? f.block = some { n with isSealed := true } ∧
      (s.session.options.fullSsa = false → value' = value ∧ s' = { s with lastCallee := none }) ∧
      lowerValue value' f s' = .ok type w ∧
      let v := sightFrom f t.session
      let before := loweredBefore target (w.refined type) { f with isTracked := true } w
      let last := loweredLast target (w.refined type) { f with isTracked := true } w
      (∀ r, n.Reads r ↔ w.node.Reads r ∨ v.ReadIn last r) ∧
      ((∀ r, v.ReadIn (before ++ last) r → n.Reads r) ↔
        ∀ r, v.ReadIn before r → w.node.Reads r ∨ v.ReadIn last r) := by
  obtain ⟨value', s', n, u, hnode, hnames, hlast, hwhole⟩ := lowerUpdate_ok hrun
  obtain ⟨type, w, hvalue, hreads⟩ := graphStatement_reads hnode
  refine ⟨value', s', n, u, type, w, hnode, block_graphStatement hnode ▸ hlast, hwhole, hvalue, ?_⟩
  intro v before last
  have hreads' (r : SymbolRef) : n.Reads r ↔ w.node.Reads r ∨ v.ReadIn last r := by
    rw [hreads]
    unfold Sight.ReadIn
    simp only [v, Sight.readBy?_sightFrom hnames]
    rfl
  refine ⟨hreads', ?_, fun hbefore r hr => ?_⟩
  · intro hall r ⟨m, hm, hr⟩
    exact (hreads' r).mp (hall r ⟨m, List.mem_append_left _ hm, hr⟩)
  · obtain ⟨m, hm, hmr⟩ := hr
    rcases List.mem_append.mp hm with hm | hm
    · exact (hreads' r).mpr (hbefore r ⟨m, hm, hmr⟩)
    · exact (hreads' r).mpr (.inr ⟨m, hm, hmr⟩)

/-- The frame of a statement whose value is about to be lowered. -/
def assignmentFrame : Frame := { block := 0, scope := .global, dialect := .associative }

/-- The target `x[y]`. -/
def indexedTarget : Node := .identifier ⟨"x", [.identifier (.plain "y" .nil)], [], .nil⟩

/-- The assignment of 1 to a target in the session of `x` and `y`. -/
def assignOne (target : Node) : EStateM.Result Stop State Unit :=
  lowerUpdate target (.literal .int "1" .nil) .nil assignmentFrame sampleState

/-- The subscript of `x[y] = 1` is an input of the statement. -/
theorem subscript_of_last_read :
    ∃ n, (ending (assignOne indexedTarget)).session.lastNode? 0 = some n ∧ n.Reads ⟨.block 0, 1⟩ := by
  have hrun : assignOne indexedTarget = .ok () (ending (assignOne indexedTarget)) := eq_ok_ending (by decide +kernel)
  obtain ⟨value', s', n, u, type, w, hnode, hlast, hwhole, hvalue, hreads, -⟩ := target_reads hrun
  obtain ⟨rfl, rfl⟩ := hwhole (by decide +kernel)
  have hlowered := of_ok (p := fun type w => decide (w.refined type = .primitive .int) &&
      (loweredLast indexedTarget (.primitive .int) { assignmentFrame with isTracked := true } w).any fun m =>
        decide ((sightFrom assignmentFrame (ending (assignOne indexedTarget)).session).readBy? m =
          some ⟨.block 0, 1⟩))
    (by decide +kernel) hvalue
  simp only [Bool.and_eq_true, decide_eq_true_eq, List.any_eq_true] at hlowered
  obtain ⟨htype, hread⟩ := hlowered
  rw [htype] at hreads
  exact ⟨_, hlast, (hreads _).mpr (.inr hread)⟩

/-- The subscript of `x[y].m = 1` is lowered as well, but it is no input of the statement. -/
theorem subscript_in_prefix_lost :
    let target : Node := .join indexedTarget (.identifier (.plain "m" .nil))
    let t := ending (assignOne target)
    (assignOne target matches .ok _ _) = true ∧
      (∃ type w, lowerValue (.literal .int "1" .nil) assignmentFrame sampleState = .ok type w ∧
        (sightFrom assignmentFrame t.session).ReadIn
          (loweredBefore target (w.refined type) { assignmentFrame with isTracked := true } w) ⟨.block 0, 1⟩) ∧
      ∃ n, t.session.lastNode? 0 = some n ∧ ¬ n.Reads ⟨.block 0, 1⟩ := by
  intro target t
  have hends : (match lowerValue (.literal .int "1" .nil) assignmentFrame sampleState with
      | .ok type w =>
        (loweredBefore target (w.refined type) { assignmentFrame with isTracked := true } w).any fun m =>
          decide ((sightFrom assignmentFrame t.session).readBy? m = some ⟨.block 0, 1⟩)
      | .error _ _ => false) = true := by decide +kernel
  have hnone : (t.session.lastNode? 0).map GraphNode.dependencies = some [] := by decide +kernel
  obtain ⟨n, hn, hdependencies⟩ := Option.map_eq_some_iff.mp hnone
  refine ⟨by decide +kernel, ?_, n, hn, ?_⟩
  · cases hvalue : lowerValue (.literal .int "1" .nil) assignmentFrame sampleState with
    | error e w =>
      rw [hvalue] at hends
      cases hends
    | ok type w =>
      rw [hvalue] at hends
      simp only [List.any_eq_true, decide_eq_true_eq] at hends
      exact ⟨type, w, rfl, hends⟩
  · rintro ⟨p, hp, -⟩
    rw [hdependencies] at hp
    cases hp

end Diglot.Lowering
