import Diglot.Proofs.Course.Expression

/-! # Courses of stores

Looking ahead, storing and returning have courses of plain instructions, and so have the statements of
both dialects that only compute and store. A node is part of the program once: `graphStatement` hands
out a node that is still open, and `commit` takes one.
-/

set_option autoImplicit false

namespace Diglot.Lowering

variable {w : Bool} {D : Prop} {P : Instruction → Prop} {α β : Type} {f : Frame} {s : State}

/-! ## Runs with a result -/

/-- The run has a course, and its result satisfies `Q` in the session behind it. -/
structure Yields (D : Prop) (P : Instruction → Prop) (Q : α → Session → Prop) (f : Frame) (s : State)
    (m : Lower α) : Prop where
  course : Course D P f s m
  result : ∀ a t, m f s = .ok a t → D → Q a t.session

namespace Yields

variable {Q : α → Session → Prop}

theorem pure {a : α} (h : D → Q a s.session) : Yields D P Q f s (Pure.pure a) := by
  refine ⟨.pure a, fun b t hrun => ?_⟩
  cases hrun
  exact h

theorem andThen {m : Lower β} {k : β → Lower α} (hr : D → Ready w f s) (hm : Course D P f s m)
    (hk : ∀ b t, m f s = .ok b t → (D → Ready w f t) → Yields D P Q f t (k b)) :
    Yields D P Q f s (m >>= k) := by
  refine ⟨hm.andThen hr fun b t hrun ht => (hk b t hrun ht).course, fun a u hrun => ?_⟩
  obtain ⟨b, t, hb, ha⟩ := bind_eq_ok.mp hrun
  exact (hk b t hb (hm.ready hr hb)).result a u ha

theorem after {R : β → Session → Prop} {m : Lower β} {k : β → Lower α} (hr : D → Ready w f s)
    (hm : Yields D P R f s m)
    (hk : ∀ b t, (D → Ready w f t) → (D → R b t.session) → Yields D P Q f t (k b)) :
    Yields D P Q f s (m >>= k) :=
  andThen hr hm.course fun b t hrun ht => hk b t ht (hm.result b t hrun)

/-- What growth keeps is there behind the first part of a run as well. -/
theorem keeping {A : Session → Prop} (hA : ∀ s t : Session, s.Grows t → A s → A t) {m : Lower β}
    {k : β → Lower α} (hr : D → Ready w f s) (h : D → A s.session) (hm : Course D P f s m)
    (hk : ∀ b t, (D → Ready w f t) → (D → A t.session) → Yields D P Q f t (k b)) :
    Yields D P Q f s (m >>= k) :=
  andThen hr hm fun b t hrun ht => hk b t ht fun hD => hA _ _ (hm.grows hr hrun hD) (h hD)

theorem withReader {g : Frame → Frame} {m : Lower α} (hg : (g f).site = f.site)
    (h : Yields D P Q (g f) s m) :
    Yields D P Q f s (MonadWithReader.withReader g m : Lower α) :=
  ⟨.withReader hg h.course, h.result⟩

end Yields

theorem Course.withResult {Q : α → Session → Prop} {m : Lower α} {k : α → Lower β}
    (hr : D → Ready w f s) (hm : Yields D P Q f s m)
    (hk : ∀ a t, (D → Ready w f t) → (D → Q a t.session) → Course D P f t (k a)) :
    Course D P f s (m >>= k) :=
  hm.course.andThen hr fun a t hrun ht => hk a t ht (hm.result a t hrun)

theorem Course.keeping {A : Session → Prop} (hA : ∀ s t : Session, s.Grows t → A s → A t)
    {m : Lower α} {k : α → Lower β} (hr : D → Ready w f s) (h : D → A s.session)
    (hm : Course D P f s m)
    (hk : ∀ a t, (D → Ready w f t) → (D → A t.session) → Course D P f t (k a)) :
    Course D P f s (m >>= k) :=
  hm.andThen hr fun a t hrun ht => hk a t ht fun hD => hA _ _ (hm.grows hr hrun hD) (h hD)

theorem IsOpen.grows {n : GraphNode} {s t : Session} (hst : s.Grows t) (h : IsOpen n s) :
    IsOpen n t := ⟨h.1, Nat.lt_of_lt_of_le h.2 hst.size_le⟩

theorem symbol_grows {r : SymbolRef} {s t : Session} (hst : s.Grows t) (h : (s.symbol? r).isSome) :
    (t.symbol? r).isSome := by
  obtain ⟨x, hx⟩ := Option.isSome_iff_exists.mp h
  rw [hst.symbols r x hx]
  rfl

/-- A declaration returns a symbol of the session. -/
theorem Yields.allocate (d : Declaration) (hr : D → Ready w f s) :
    Yields D P (fun r t => (t.symbol? r).isSome) f s (Lowering.allocate d) := by
  refine ⟨.allocate d, fun r t hrun hD => ?_⟩
  obtain ⟨r', hrun', hsome⟩ := run_allocate ((hr hD).canDeclare d)
  rw [hrun] at hrun'
  cases hrun'
  exact hsome

/-! ## Looking ahead -/

namespace Composed

theorem declareForward (name : String) : Composed w D P (declareForward name) := by
  refine bind read fun f => ite (bind sight fun v => ite ?_ (pure _)) (pure _)
  exact bind (allocate _) fun _ => pure _

section
variable {k : Nat} {part : ProbePart} (hpart : ∀ n : Node, n.weight ≤ k → Composed w D P (part n))
include hpart

theorem probeAll {l : List Node} (hl : Node.weights l ≤ k) : Composed w D P (l.forM part) :=
  forM fun n hn => hpart n (Nat.le_trans (Node.weight_le_weights hn) hl)

theorem probeSegment (isSingle : Bool) {segment : Node} (hs : segment.weight ≤ k + 1) :
    Composed w D P (probeSegment part isSingle segment) := by
  unfold Lowering.probeSegment
  cases segment with
  | identifier ident =>
    cases ident
    simp only [Node.weight, Identifier.weight] at hs
    refine ite (bind (probeAll hpart ?_) fun _ => ite (declareForward _) (pure _)) (pure _)
    dsimp only
    omega
  | call call =>
    cases call
    simp only [Node.weight, Call.weight] at hs
    refine probeAll hpart ?_
    dsimp only
    omega
  | _ => exact pure _

theorem probeChain {segments : List Node} (hne : segments ≠ [])
    (hs : ∀ n ∈ segments, n.unwrap.weight ≤ k + 1) :
    Composed w D P (probeChain part segments) := by
  unfold Lowering.probeChain
  rw [if_neg (by simpa using hne)]
  refine forM fun n hn => ?_
  obtain ⟨m, hm, rfl⟩ := List.mem_map.mp hn
  exact probeSegment hpart _ (hs m hm)

theorem probeNode {n : Node} (hn : n.weight ≤ k + 1) : Composed w D P (probeNode part n) := by
  have hsingle (h : n.unwrap = n) : Composed w D P (Lowering.probeChain part [n]) := by
    refine probeChain hpart (List.cons_ne_nil _ _) fun m hm => ?_
    rw [List.mem_singleton.mp hm, h]
    exact hn
  unfold Lowering.probeNode
  cases n with
  | identifier => exact hsingle rfl
  | call => exact hsingle rfl
  | member left right op lastFactor span =>
    refine withSegments fun l hl => probeChain hpart (Node.segments_ne_nil hl) fun m hm => ?_
    have hlt := Node.weight_lt_of_mem_segments hl hm
    have hunwrap := m.weight_unwrap_le
    omega
  | literal => exact pure _
  | list items dims guides span =>
    simp only [Node.weight] at hn
    refine forM fun m hm => hpart m ?_
    rcases List.mem_append.mp hm with hm | hm
    · have := Node.weight_le_weights hm
      omega
    · have := Node.weight_le_weights hm
      omega
  | range first last step span =>
    simp only [Node.weight] at hn
    refine bind (hpart _ (by omega)) fun _ => bind (hpart _ (by omega)) fun _ => ?_
    cases step with
    | none => exact pure _
    | some step =>
      simp only [Node.optWeight] at hn
      exact forM fun m hm => hpart m (by rw [List.mem_singleton.mp hm]; omega)
  | unary =>
    simp only [Node.weight] at hn
    exact hpart _ (by omega)
  | binary left op right span =>
    simp only [Node.weight] at hn
    dsimp only
    split
    · exact halt rfl _ _
    · exact bind (hpart _ (by omega)) fun _ => hpart _ (by omega)
  | group inner dims guides span =>
    simp only [Node.weight] at hn
    have hmoved := Node.weight_ungroup_le inner dims guides
    refine ite (hpart _ (by omega)) (bind (hpart _ (by omega)) fun _ => ?_)
    exact probeAll hpart (by omega)
  | defaultArg => exact pure _
  | dynamic => exact pure _
  | _ => exact halt rfl _ _

end

theorem probe (n : Node) : Composed w D P (probe n) := by
  have hwithin (depth : Nat) (n : Node) (hn : n.weight ≤ depth) :
      Composed w D P (probeWithin depth n) := by
    induction depth generalizing n with
    | zero => exact absurd n.weight_pos (by omega)
    | succ depth ih => exact probeNode ih hn
  exact hwithin _ n (Nat.le_refl _)

end Composed

/-! ## Storing -/

theorem Yields.targetSymbol (ident : Identifier) (type : Ty) (hr : D → Ready w f s) :
    Yields D P (fun r t => (t.symbol? r).isSome) f s (targetSymbol ident type) := by
  refine .andThen hr (Composed.sight f s hr) fun v t hrun ht => ?_
  obtain ⟨rfl, hv, _⟩ := sight_eq_ok.mp hrun
  cases hres : v.resolve ident.name with
  | found r =>
    refine .pure fun _ => ?_
    have hsome := Sight.resolve_exists hres
    rw [hv] at hsome
    exact hsome
  | inaccessible r =>
    refine .andThen ht (.report _ _ rfl) fun _ u _ hu => ?_
    exact .allocate _ hu
  | unbound => exact .allocate _ ht

namespace Composed

theorem storeIdentifier (ident : Identifier) (type : Ty) :
    Composed w D Instruction.IsPlain (storeIdentifier ident type) := by
  have hrest (symbol : Symbol) (path : Path) : Composed w D Instruction.IsPlain (do
      Lowering.lowerDims Lowering.expression ident.dims
      let dims := ident.dims.length
      if 0 < dims then
        let literals := literalDims (← MonadReader.read).dialect ident.dims
        Lowering.recordIndexing literals
        Lowering.recordSplitDims literals true
      let _ ← Lowering.emitStore symbol dims ident.span
      return path) := by
    refine bind (anyDims _) fun _ => ite (bind read fun f => ?_) ?_
    · refine bind (recordIndexing _) fun _ => bind (recordSplitDims _ _) fun _ => ?_
      exact bind (emitStore _ _ _) fun _ => pure _
    · exact bind (emitStore _ _ _) fun _ => pure _
  intro f s hr
  refine .withResult hr (.targetSymbol ident type hr) fun r t ht hsome => ?_
  exact (Course.getSymbol hsome).andThen ht fun symbol u _ hu => hrest symbol _ f u hu

end Composed

theorem Course.lowerProperty (property : Identifier) (c : Cursor) (resolution : Resolution)
    (span : Span) (hr : D → Ready w f s)
    (h : D → ∀ r, resolution = .found r → (s.session.symbol? r).isSome) :
    Course D Instruction.IsPlain f s (lowerProperty property c resolution span) := by
  cases resolution with
  | found r =>
    refine (Course.getSymbol fun hD => h hD r rfl).andThen hr fun symbol t _ ht => ?_
    have hlabel := Operand.isLabel_ofSymbol symbol
    exact Composed.bind (.emitPushm hlabel _ _) (fun _ => .pure _) f t ht
  | inaccessible r =>
    exact Composed.bind (.report rfl _ _) (fun _ => .bind (.emitPush rfl _ _) fun _ => .pure _) f s hr
  | unbound =>
    refine Composed.onlyIf (.warnUnbound _ _) (.bind (.registerLateVariable _ _) fun p => ?_) f s hr
    exact .bind .classScope fun _ => .bind (.emitPushm rfl _ _) fun _ => .pure _

/-- A symbol that was found is still there when the subscripts have been lowered. -/
theorem Course.storeResolved (property : Identifier) (c : Cursor) (resolution : Resolution)
    (span : Span) (literals : List Segment) (cls : Option Nat) (hr : D → Ready w f s)
    (h : D → ∀ r, resolution = .found r → (s.session.symbol? r).isSome) :
    Course D Instruction.IsPlain f s (do
      lowerDims expression property.dims
      let dims := property.dims.length
      if 0 < dims then
        recordIndexing literals
        let _ ← emitPushDims dims
      let c ← Lowering.lowerProperty property c resolution span
      let _ ← emitPoplist (c.depth + 1) cls span
      return c.path) := by
  have hkeep : ∀ s t : Session, s.Grows t → (∀ r, resolution = .found r → (s.symbol? r).isSome) →
      ∀ r, resolution = .found r → (t.symbol? r).isSome :=
    fun _ _ hst h r hr => symbol_grows hst (h r hr)
  have hlast (t : State) (ht : D → Ready w f t)
      (h : D → ∀ r, resolution = .found r → (t.session.symbol? r).isSome) :
      Course D Instruction.IsPlain f t (do
        let c ← Lowering.lowerProperty property c resolution span
        let _ ← emitPoplist (c.depth + 1) cls span
        return c.path) := by
    refine (Course.lowerProperty property c resolution span ht h).andThen ht fun c u _ hu => ?_
    exact Composed.bind (.emitPoplist _ _ _) (fun _ => .pure _) f u hu
  refine .keeping hkeep hr h (Composed.anyDims _ f s hr) fun _ t ht h => ?_
  dsimp only
  split
  · refine .keeping hkeep ht h (Composed.recordIndexing _ f t ht) fun _ u hu h => ?_
    exact .keeping hkeep hu h (Composed.emitPushDims _ f u hu) fun _ v hv h => hlast v hv h
  · exact hlast t ht h

namespace Composed

theorem storeProperty (property : Identifier) (c : Cursor) (span : Span) :
    Composed w D Instruction.IsPlain (storeProperty property c span) := by
  refine withSight fun f s blocks hr => ?_
  refine .storeResolved property c _ span _ _ hr fun _ r hres => ?_
  split at hres
  · exact Sight.inClass_exists hres
  · cases hres

theorem storeMember (property : Identifier) (segments : List Node) (span : Span) :
    Composed w D Instruction.IsPlain (storeMember property segments span) := by
  refine bind (withReader ?_ ?_) fun c => bind sight fun v => ?_
  · exact fun _ => rfl
  · refine lowerSegments (k := Node.weights (segments.map Node.unwrap)) (fun n _ => expression n) _
      (fun n hn => ?_) _
    have := Node.weight_le_weights hn
    omega
  · refine ite (bind (emitPoplist _ _ _) fun _ => pure _) ?_
    split
    · exact bind (emitCallTo (by decide) _ _ _) fun _ => pure _
    · exact storeProperty _ _ _

theorem storeChain (target : Node) : Composed w D Instruction.IsPlain (storeChain target) := by
  refine withSegments fun l hl => ?_
  split
  · next hlast => exact absurd (List.getLast?_eq_none_iff.mp hlast) (Node.segments_ne_nil hl)
  · exact storeMember _ _ _
  · exact halt rfl _ _

theorem assignTo (target : Node) (type : Ty) :
    Composed w D Instruction.IsPlain (assignTo target type) := by
  unfold Lowering.assignTo
  split
  · exact ite (halt rfl _ _) (storeIdentifier _ _)
  · exact storeChain _
  · exact halt rfl _ _

/-! ## Returning -/

theorem currentProcedure? : Composed w D P currentProcedure? :=
  bind getSession fun _ => bind read fun _ => pure _

theorem lowerReturned (value : Option Node) (span : Span) :
    Composed w D Instruction.IsPlain (lowerReturned value span) := by
  cases value with
  | some v => exact expression v
  | none => exact bind (emitPush rfl _ _) fun _ => pure _

theorem checkReturned (procedure : Option Procedure) (type : Ty) (span : Span) :
    Composed w D Instruction.IsPlain (checkReturned procedure type span) := by
  cases procedure with
  | none => exact pure _
  | some p =>
    refine bind getSession fun s => ite (bind (report rfl _ _) fun _ => ?_) (pure _)
    exact bind (emitPop rfl _ _) fun _ => bind (emitPush rfl _ _) fun _ => pure _

theorem lowerResult (value : Option Node) (span : Span) :
    Composed w D Instruction.IsPlain (lowerResult value span) := by
  have hrest : ∀ procedure, Composed w D Instruction.IsPlain (finishResult value span procedure) := by
    intro procedure
    refine bind pc fun _ => bind (lowerReturned _ _) fun _ => bind pc fun _ => ?_
    refine bind (modifyNode fun _ => ⟨rfl, rfl⟩) fun _ => bind (checkReturned _ _ _) fun _ => ?_
    exact bind classScope fun _ => bind (emitPop rfl _ _) fun _ => pure _
  refine bind currentProcedure? fun procedure => ?_
  cases procedure with
  | none => exact hrest none
  | some p => exact onlyIf (halt rfl _ _) (hrest (some p))

end Composed

/-! ## Dependency nodes -/

theorem Course.commit {node : GraphNode} (hr : D → Ready w f s) (h : D → IsOpen node s.session) :
    Course D P f s (commit node) := by
  unfold Lowering.commit
  split
  · next hsealed =>
    refine .defectThen _ fun hD => ?_
    rw [(h hD).1] at hsealed
    cases hsealed
  · refine .keeping (fun _ _ => IsOpen.grows) hr h (.note _ _ _) fun _ t ht hopen => ?_
    refine (Course.getBlock fun hD => ?_).andThen ht fun b u hrun hu => ?_
    · simp [Session.block?, (hopen hD).2]
    · rw [run_getBlock] at hrun
      split at hrun
      · next hb =>
        cases hrun
        exact .record (.commit node (by rw [hb]; rfl))
      · cases hrun

theorem Course.commitAll {nodes : List GraphNode} (hr : D → Ready w f s)
    (h : D → ∀ n ∈ nodes, IsOpen n s.session) : Course D P f s (nodes.forM Lowering.commit) := by
  induction nodes generalizing s with
  | nil => exact .pure ()
  | cons n rest ih =>
    have hkeep : ∀ s t : Session, s.Grows t → (∀ n ∈ rest, IsOpen n s) → ∀ n ∈ rest, IsOpen n t :=
      fun _ _ hst h n hn => (h n hn).grows hst
    refine .keeping hkeep hr (fun hD m hm => h hD m (List.mem_cons_of_mem n hm))
      (.commit hr fun hD => h hD n (List.mem_cons_self ..)) fun _ t ht hopen => ?_
    exact ih ht hopen

theorem Yields.freshNode (isTemporary : Bool) (hr : D → Ready w f s) :
    Yields D P IsOpen f s (freshNode isTemporary) := by
  refine ⟨.withFrame (.bind (.withSession (.bind (.record .uid) fun _ _ _ => .pure _))
    fun _ _ _ => .pure _), fun n t hrun hD => ?_⟩
  cases hrun
  exact ⟨rfl, (hr hD).stands.inside⟩

/-- A node that is open stays open while it is worked on. -/
theorem Yields.tracking {node : GraphNode} {m : Lower α} (hr : D → Ready w f s)
    (h : D → IsOpen node s.session) (hm : Composed w D P m) :
    Yields D P (fun p t => IsOpen p.2 t) f s (tracking node m) := by
  have hset : Course D P f s (modify fun s => { s with node } : Lower Unit) := by
    refine .modify rfl fun hD hs n hn => ?_
    rcases hn with rfl | hn
    · exact h hD
    · exact hs n (.inr hn)
  refine .andThen hr hset fun _ t _ ht => ?_
  refine .andThen ht (Composed.withReader ?_ hm f t ht) fun a u _ hu => ?_
  · exact fun _ => rfl
  refine .andThen hu .get fun v u' hrun _ => ?_
  cases hrun
  exact .pure fun hD => (hu hD).neat _ (.inl rfl)

namespace Composed

theorem refineType (type : Ty) : Composed w D P (refineType type) := by
  refine ite (bind getSession fun s => bind get fun t => ?_) (pure _)
  split
  · exact pure _
  · exact pure _

theorem lowerValueAndStore (target value : Node) (isLast : Bool) :
    Composed w D Instruction.IsPlain (lowerValueAndStore target value isLast) := by
  refine bind pc fun _ => bind (expression _) fun _ => bind pc fun _ => ?_
  refine onlyIf recordSplitChain (bind (refineType _) fun _ => ?_)
  exact bind (assignTo _ _) fun _ => pure _

end Composed

theorem Yields.graphStatement (target value : Node) (span : Span) (isTemporary isLast : Bool)
    (hr : D → Ready w f s) :
    Yields D Instruction.IsPlain IsOpen f s
      (graphStatement target value span isTemporary isLast) := by
  refine .after hr (.freshNode isTemporary hr) fun fresh t ht hfresh => ?_
  refine .keeping (fun _ _ => IsOpen.grows) ht hfresh (Composed.probe value f t ht)
    fun _ u hu hfresh => ?_
  have htrack := Yields.tracking hu hfresh (Composed.lowerValueAndStore target value isLast)
  refine .after hu htrack fun p v hv hopen => ?_
  have hdepx : Composed w D Instruction.IsPlain emitDepx :=
    .emitSilent (fun _ => Instruction.isPlain_bare (by decide : OpCode.depx.IsPlain)) _
  refine .keeping (fun _ _ => IsOpen.grows) hv hopen (hdepx f v hv) fun _ x hx hopen => ?_
  refine .keeping (fun _ _ => IsOpen.grows) hx hopen (.note _ _ _) fun _ y hy hopen => ?_
  exact .pure hopen

/-! ## Splitting chains -/

/-- Nodes that are open can be held back. -/
theorem Course.hold {node : GraphNode} (h : D → IsOpen node s.session) :
    Course D P f s (hold node) := by
  refine .modify rfl fun hD hs n hn => ?_
  rcases hn with rfl | hn
  · exact hs s.node (.inl rfl)
  · rcases List.mem_append.mp hn with hn | hn
    · exact hs n (.inr hn)
    · rw [List.mem_singleton.mp hn]
      exact h hD

namespace Composed

theorem pushPointers (segments : List Node) : Composed w D P (pushPointers segments) :=
  modifyState (fun _ => rfl) fun _ hs => hs

theorem holdStatement (g : Frame → Frame) (hg : ∀ f, (g f).site = f.site) (target value : Node)
    (span : Span) (isTemporary isLast : Bool) :
    Composed w D Instruction.IsPlain (do
      Lowering.hold (← MonadWithReader.withReader g
        (Lowering.graphStatement target value span isTemporary isLast))) := by
  intro f s hr
  have hstatement := Yields.graphStatement target value span isTemporary isLast
    fun hD => (hr hD).site (hg f)
  exact .withResult hr (.withReader (hg f) hstatement) fun node t _ hopen => .hold hopen

theorem lowerFactors (target : Node) (span : Span) (factor : Node) (anchor : Option Nat)
    (rest : List Node) :
    Composed w D Instruction.IsPlain (lowerFactors target span factor anchor rest) := by
  have hfactor (temporary factor : Node) (anchor : Option Nat) (isLast : Bool) :=
    holdStatement (w := w) (D := D) (fun f => { f with anchor }) (fun _ => rfl) temporary factor span
      true isLast
  induction rest generalizing factor anchor with
  | nil =>
    refine bind (nextTemporary _) fun name => ?_
    have hlast := holdStatement (w := w) (D := D) id (fun _ => rfl) target
      (.identifier (.plain name span)) span false false
    have hboth := bind (hfactor (.identifier (.plain name span)) factor anchor true) fun _ => hlast
    rw [bind_assoc] at hboth
    exact hboth
  | cons segment rest ih =>
    refine bind (nextTemporary _) fun name => ?_
    have hboth := bind (hfactor (.identifier (.plain name span)) factor anchor false) fun _ =>
      bind (pushPointers [segment]) fun _ =>
        ih (.member (.identifier (.plain name span)) segment .dot rest.isEmpty span) none
    rw [bind_assoc] at hboth
    exact hboth

theorem splitChain (target : Node) {segments : List Node} (h : segments ≠ []) (span : Span) :
    Composed w D Instruction.IsPlain (splitChain target segments span) := by
  refine bind sight fun v => ?_
  split
  · exact bind (pushPointers _) fun _ => lowerFactors _ _ _ _ _
  · exact bind (pushPointers _) fun _ => lowerFactors _ _ _ _ _
  · exact absurd rfl h

theorem dropHeld : Composed w D P (modify fun s => { s with pointers := [], held := [] }) := by
  refine modifyState (fun _ => rfl) fun s hs n hn => ?_
  rcases hn with rfl | hn
  · exact hs s.node (.inl rfl)
  · cases hn

theorem lowerSplit (target chain : Node) (span : Span) :
    Composed w D Instruction.IsPlain (lowerSplit target chain span) := by
  refine withSegments fun l hl => bind dropHeld fun _ => ?_
  refine bind (splitChain target (Node.segments_ne_nil hl) span) fun _ => ?_
  intro f s hr
  have hheld : D → ∀ n ∈ s.held, IsOpen n s.session := fun hD n hn => (hr hD).neat n (.inr hn)
  have hkeep : ∀ s' t : Session, s'.Grows t → (∀ n ∈ s.held, IsOpen n s') →
      ∀ n ∈ s.held, IsOpen n t := fun _ _ hst h n hn => (h n hn).grows hst
  refine .withState (.keeping hkeep hr hheld (dropHeld f s hr) fun _ t ht hopen => ?_)
  exact .commitAll ht hopen

/-! ## Statements that only compute and store -/

theorem lowerUpdate (target value : Node) (span : Span) :
    Composed w D Instruction.IsPlain (lowerUpdate target value span) := by
  refine bind (modifyState (fun _ => rfl) fun _ hs => hs) fun _ => bind getSession fun s => ite ?_ ?_
  · exact lowerSplit _ _ _
  · intro f s hr
    exact .withResult hr (.graphStatement _ _ _ _ _ hr) fun node t ht hopen => .commit ht hopen

theorem lowerUnnamed (node : Node) : Composed w D Instruction.IsPlain (lowerUnnamed node) :=
  bind (nextTemporary _) fun _ => lowerUpdate _ _ _

theorem lowerCondition (condition : Node) (span : Span) :
    Composed w D Instruction.IsPlain (lowerCondition condition span) := by
  refine bind (expression _) fun _ => bind classScope fun _ => ?_
  exact bind (emitPop rfl _ _) fun _ => pure _

theorem lowerAssignment (target value : Node) :
    Composed w D Instruction.IsPlain (lowerAssignment target value) := by
  refine bind (modifyState (fun _ => rfl) fun _ hs => hs) fun _ => bind (expression _) fun _ => ?_
  exact bind (assignTo _ _) fun _ => pure _

theorem lowerDiscarded (node : Node) : Composed w D Instruction.IsPlain (lowerDiscarded node) := by
  refine bind (expression _) fun _ => bind classScope fun _ => ?_
  exact bind (emitPop rfl _ _) fun _ => pure _

theorem assignment (target value : Node) (span : Span) :
    Composed w D Instruction.IsPlain (statement (.assign target value span)) := by
  rw [statement_eq]
  refine bind read fun f => ?_
  cases f.dialect with
  | associative => exact bind (lowerUpdate _ _ _) fun _ => pure _
  | imperative => exact bind (lowerAssignment _ _) fun _ => pure _

/-! ## Types and variables -/

theorem resolveType (type : TypeName) (span : Span) : Composed w D P (resolveType type span) := by
  refine bind getSession fun s => ?_
  split
  · exact pure _
  · exact halt rfl _ _

theorem lowerVariable (v : Variable) :
    Composed w D Instruction.IsPlain (lowerVariable statement v) := by
  refine bind (resolveType _ _) fun type => ?_
  intro f s hr
  refine .withResult hr (.allocate _ hr) fun r t ht hsome => ?_
  refine (Course.getSymbol hsome).andThen ht fun symbol u _ hu => ?_
  refine bind (emitHeapBox symbol) (fun _ => ?_) f u hu
  unfold initializer?
  cases v.value with
  | none => exact pure _
  | some value => exact bind (assignment _ _ _) fun _ => pure _

theorem resolveParams (params : List Parameter) : Composed w D P (resolveParams params) := by
  induction params with
  | nil => exact pure _
  | cons p rest ih => exact bind (resolveType _ _) fun _ => bind ih fun _ => pure _

theorem lowerMembers (members : List Variable) : Composed w D P (lowerMembers members) := by
  induction members with
  | nil => exact pure _
  | cons v rest ih => exact bind (resolveType _ _) fun _ => bind (allocate _) fun _ => ih

end Composed

/-- An attribute that cannot be kept is no reason to stop. -/
theorem checkAttribute_error {classes : ClassTable} {a : Call} {issue : Issue} {message : String}
    {span : Span} (h : checkAttribute classes a = .error (issue, message, span)) :
    issue.isHalting = false := by
  unfold checkAttribute at h
  split at h
  · cases h
    rfl
  · split at h
    · cases h
      rfl
    · dsimp only at h
      split at h
      · cases h
      · cases h
        rfl

theorem Composed.lowerAttributes (attributes : List Call) :
    Composed w D P (lowerAttributes attributes) := by
  induction attributes with
  | nil => exact pure _
  | cons a rest ih =>
    refine bind getSession fun s => ?_
    split
    · exact bind ih fun _ => pure _
    · next hcheck => exact bind (report (checkAttribute_error hcheck) _ _) fun _ => ih

theorem lt_of_indexOf? {t : ClassTable} {name : String} {id : Nat} (h : t.indexOf? name = some id) :
    id < t.size := by
  obtain ⟨hlt, _⟩ := List.findIdx?_eq_some_iff_getElem.mp h
  rwa [Array.length_toList] at hlt

/-- The base of a class is among the classes. -/
theorem Yields.resolveBase (c : ClassDecl) (hr : D → Ready w f s) :
    Yields D P (fun base t => ∀ b, base = some b → b < t.classes.size) f s (resolveBase c) := by
  unfold Lowering.resolveBase
  split
  · exact .pure fun _ _ hb => by cases hb
  · refine .andThen hr .getSession fun u t hrun ht => ?_
    cases hrun
    split
    · next id hid =>
      refine .pure fun _ b hb => ?_
      cases hb
      exact lt_of_indexOf? hid
    · exact ⟨.halt _ _ rfl, fun _ _ hrun => by cases hrun⟩

namespace Composed

/-- The value of a watch expression goes to a symbol of its own. -/
theorem lowerWatch (node : Node)
    (hP : ∀ i, Instruction.IsPlain i ∨ i.opcode = .retcn ∧ i.HasNoLabel → P i) :
    Composed w D P (lowerWatch node) := by
  have hplain {α : Type} {m : Lower α} (hm : Composed w D Instruction.IsPlain m) :
      Composed w D P m := hm.mono fun i hi => hP i (.inl hi)
  refine bind pc fun entry => bind (hplain (expression node)) fun _ => ?_
  refine bind (nextTemporary _) fun name => ?_
  intro f s hr
  refine .withResult hr (.allocate _ hr) fun r t ht hsome => ?_
  refine (Course.getSymbol hsome).andThen ht fun symbol u _ hu => ?_
  refine bind (hplain (emitPopw symbol)) (fun _ => bind (emit (fun debug => ?_) _) fun _ => ?_) f u hu
  · exact hP _ (.inr ⟨rfl, fun o ho => by cases ho⟩)
  · exact pure _

end Composed

end Diglot.Lowering
