import Diglot.Proofs.Law.Expression

/-! # Stores keep a law

A plain name is stored where it was found, or declared if it stands for nothing; code of no class, or of
a procedure, declares no members. A member is stored through its setter or where it was found. Each
statement of an associative block works on a node of its own, which is open until it is committed.
-/

set_option autoImplicit false

namespace Diglot.Lowering

variable {L : Law} {o : Stage} {α β : Type} {f : Frame} {s : State}

/-- Code of no class, or of a procedure, does not declare members. -/
theorem bucketOf_local (hf : f.DeclaresLocals) (w isStatic : Bool) :
    bucketOf w f.scope isStatic = .watch ∨ bucketOf w f.scope isStatic = .frame ∨
      bucketOf w f.scope isStatic = .global := by
  unfold bucketOf Scope.function
  cases w <;> cases hp : f.scope.procedure with
  | none => simp [hf hp]
  | some r => simp

theorem isMember_declared (hf : f.DeclaresLocals) (s : Session) (d : Declaration) :
    (s.declared f d).isMember = false := by
  unfold Session.declared Symbol.isMember symbolOf Scope.function
  cases hp : f.scope.procedure with
  | none => simp [hf hp]
  | some r => simp

/-- Such code enters what it declares into its own block, if there is one. -/
theorem run_allocate_local (hf : f.DeclaresLocals) (d : Declaration) (s : State) :
    let bucket := bucketOf s.session.isWatching f.scope d.isStatic
    let counted : Session := { s.session with counters := countersAfter d s.session bucket 1 }
    allocate d f s =
      match s.session.block? f.block with
      | none => .error (.defect (.missingBlock f.block)) { s with session := counted }
      | some b =>
        .ok ⟨.block f.block, b.symbols.size⟩
          { s with session := counted.enterLocal f.block (s.session.declared f d) } := by
  intro bucket counted
  have hlocal (x : Symbol) :
      appendLocal x f { s with session := counted } =
        match s.session.block? f.block with
        | none => .error (.defect (.missingBlock f.block)) { s with session := counted }
        | some b => .ok ⟨.block f.block, b.symbols.size⟩ { s with session := counted.enterLocal f.block x } := by
    have hblock : counted.block? f.block = s.session.block? f.block := rfl
    simp only [appendLocal, run_bind, run_read, run_getBlock, hblock]
    cases s.session.block? f.block <;> rfl
  have hallocate : allocate d f s = appendLocal (symbolOf d s.session f bucket) f { s with session := counted } := by
    obtain hb | hb | hb := bucketOf_local hf s.session.isWatching d.isStatic
    all_goals
      simp only [allocate, run_bind, run_read, run_getSession, run_modifySession, counted, bucket, hb]
      rfl
  rw [hallocate, hlocal]
  rfl

theorem allocate_own_ok {d : Declaration} {r : SymbolRef} {t : State} (hown : f.IsOwn)
    (hrun : allocate d f s = .ok r t) :
    ∃ hd counters, s.session.header? f.block = some hd ∧ r = ⟨.block f.block, hd.symbols.size⟩ ∧
      t.session = { s.session with counters }.enterLocal f.block (s.session.declared f d) := by
  rw [run_allocate_local hown.declaresLocals] at hrun
  cases hb : s.session.block? f.block with
  | none =>
    rw [hb] at hrun
    cases hrun
  | some b =>
    rw [hb] at hrun
    cases hrun
    exact ⟨b.header, _, Session.header?_of_block? hb, rfl, rfl⟩

/-- Code of no class, or of a procedure, declares a symbol that is no member. -/
theorem run_allocate_own {w : Bool} (h : Ready w f s) (hown : f.IsOwn) (d : Declaration) :
    ∃ k x, allocate d f s = .ok ⟨.block f.block, k⟩ { s with session := s.session.declare f d } ∧
      (s.session.declare f d).symbol? ⟨.block f.block, k⟩ = some x ∧ x.isMember = false := by
  obtain ⟨r, hrun, -⟩ := run_allocate (h.canDeclare d)
  obtain ⟨hd, counters, hblock, rfl, hsession⟩ := allocate_own_ok hown hrun
  refine ⟨hd.symbols.size, { s.session.declared f d with position := hd.symbols.size }, hrun, ?_,
    isMember_declared hown.declaresLocals s.session d⟩
  change s.session.declare f d = _ at hsession
  have hblock' : ({ s.session with counters } : Session).header? f.block = some hd := hblock
  rw [hsession, Session.symbol?_block, Session.header?_enterLocal, if_pos rfl, hblock']
  exact SymbolTable.get?_append_size _ _

/-- Behind the search for its target, a store goes on where the target may be accessed. -/
theorem Heeds.withTarget {ident : Identifier} {type : Ty} {k : SymbolRef → Lower β}
    (h : Poised o f s)
    (hk : ∀ r t, Primed o.isWatching f t →
      (∀ x, t.session.symbol? r = some x → ∀ j : Instruction, j.Accesses x →
        L.allows f.scope.classScope t.session j) → Heeds L o f t (k r)) :
    Heeds L o f s (targetSymbol ident type >>= k) := by
  have hdeclare {t : State} (ht : Primed o.isWatching f t) (d : Declaration) :
      Heeds L o f t (allocate d >>= k) := by
    obtain ⟨r, x, hrun, hx, hmember⟩ := run_allocate_own ht.toReady h.own d
    refine .bind (.silent ht (.allocate d)) fun r' u hrun' hu _ => hk r' u hu fun y hy j hj => ?_
    rw [hrun] at hrun'
    cases hrun'
    rw [hx] at hy
    cases hy
    exact L.declared hx hmember hj
  unfold targetSymbol
  rw [bind_assoc]
  refine .withSight fun blocks => ?_
  cases hres : Sight.resolve ⟨s.session, f, blocks⟩ ident.name with
  | found r =>
    refine .congr (by rw [pure_bind]) (hk r s h.ready fun x hx j hj => ?_)
    exact L.access h.ready h.own (.plain _ hres) hx hj
  | inaccessible r =>
    dsimp only
    rw [bind_assoc]
    exact .bind (.silent h.ready (.report rfl _ _)) fun _ t _ ht _ => hdeclare ht _
  | unbound => exact hdeclare h.ready _

namespace Accessing

theorem emitPopSymbol {w : Bool} {D : Prop} (x : Symbol) (dims : Nat) (span : Span) :
    Composed w D (·.Accesses x) (emitPopSymbol x dims span) := by
  have hstore (debug : Option DebugRecord) : Instruction.Accesses x
      { Instruction.ternary .pop (.ofSymbol x) (.cls x.classScope) (.arrayDim dims) with debug } :=
    .store dims ⟨debug, rfl⟩
  exact .bind .getSession fun _ => .ite (.emitSilent hstore span) (.emit hstore span)

end Accessing

theorem Heeding.storeIdentifier (ident : Identifier) (type : Ty) :
    Heeding L o (storeIdentifier ident type) := by
  intro f s h
  refine .withTarget h fun r t ht hallowed => .withSymbol fun x hx => ?_
  have hstore {u : State} (hu : Primed o.isWatching f u) (htu : t.session.Widens u.session) :
      Heeds L o f u (do
        let _ ← emitStore x ident.dims.length ident.span
        return ([.ofName ident.name (some r) x.classScope] : Path)) := by
    refine .bind (.bind (Heeding.neutral (Neutral.emitPushVarData _ _ _) f u (h.next hu)) ?_)
      fun _ _ _ hz _ => .pure hz _
    refine fun _ v _ hv huv => .accesses (h.next hv) (Accessing.emitPopSymbol x _ _) fun j hj => ?_
    exact L.widens (htu.trans huv) (hallowed x hx j hj)
  refine .bind (Heeding.anyDims _ f t (h.next ht)) fun _ u _ hu htu => ?_
  dsimp only
  split
  · refine .withFrame (.bind (.silent hu (.recordIndexing _)) fun _ v _ hv huv => ?_)
    refine .bind (.silent hv (.recordSplitDims _ _)) fun _ x _ hx hvx => ?_
    exact hstore hx (htu.trans (huv.trans hvx))
  · exact hstore hu htu

/-- What a resolution found is there and may be accessed. -/
def Grants (L : Law) (f : Frame) (s : Session) (resolution : Resolution) : Prop :=
  ∀ r, resolution = .found r → ∃ x, s.symbol? r = some x ∧
    ∀ j : Instruction, j.Accesses x → L.allows f.scope.classScope s j

theorem Grants.widens {s t : Session} {resolution : Resolution} (h : Grants L f s resolution)
    (hst : s.Widens t) : Grants L f t resolution := by
  intro r hr
  obtain ⟨x, hx, hallowed⟩ := h r hr
  exact ⟨x, hst.symbols r x hx, fun j hj => L.widens hst (hallowed j hj)⟩

/-- The last segment of an assigned chain is pushed where it was found. -/
theorem Heeds.lowerProperty (property : Identifier) (c : Cursor) {resolution : Resolution}
    (span : Span) (h : Poised o f s) (hgrants : Grants L f s.session resolution) :
    Heeds L o f s (lowerProperty property c resolution span) := by
  cases resolution with
  | found r =>
    obtain ⟨x, hx, hallowed⟩ := hgrants r rfl
    refine .withSymbol fun y hy => ?_
    rw [hx] at hy
    cases hy
    refine .bind (.accesses h (Accessing.emitPushm x span) hallowed) ?_
    exact fun _ _ _ ht _ => .pure ht _
  | inaccessible r =>
    refine Heeding.bind (.silent (.report rfl _ _)) (fun _ => ?_) f s h
    exact .bind (.neutral (Neutral.emitPush rfl _ _)) fun _ => .pure _
  | unbound =>
    refine Heeding.onlyIf (.silent (.warnUnbound _ _)) ?_ f s h
    refine .bind (.silent (.registerLateVariable _ _)) fun p => .bind (.silent .classScope) fun _ => ?_
    exact .bind (.neutral (Neutral.emitPushm rfl _ _)) fun _ => .pure _

/-- What was found may still be accessed when the subscripts have been lowered. -/
theorem Heeds.storeResolved (property : Identifier) (c : Cursor) {resolution : Resolution}
    (span : Span) (literals : List Segment) (cls : Option Nat) (h : Poised o f s)
    (hgrants : Grants L f s.session resolution) :
    Heeds L o f s (do
      lowerDims expression property.dims
      let dims := property.dims.length
      if 0 < dims then
        recordIndexing literals
        let _ ← emitPushDims dims
      let c ← Lowering.lowerProperty property c resolution span
      let _ ← emitPoplist (c.depth + 1) cls span
      return c.path) := by
  have hlast {t : State} (ht : Primed o.isWatching f t) (hst : s.session.Widens t.session) :
      Heeds L o f t (do
        let c ← Lowering.lowerProperty property c resolution span
        let _ ← emitPoplist (c.depth + 1) cls span
        return c.path) := by
    refine .bind (.lowerProperty property c span (h.next ht) (hgrants.widens hst)) ?_
    intro c u _ hu _
    exact Heeding.bind (.neutral (Neutral.emitPoplist _ _ _)) (fun _ => .pure _) f u (h.next hu)
  refine .bind (Heeding.anyDims _ f s h) fun _ t _ ht hst => ?_
  dsimp only
  split
  · refine .bind (.silent ht (.recordIndexing _)) fun _ u _ hu htu => ?_
    refine .bind (Heeding.neutral (Neutral.emitPushDims _) f u (h.next hu)) fun _ v _ hv huv => ?_
    exact hlast hv (hst.trans (htu.trans huv))
  · exact hlast ht hst

namespace Heeding

theorem storeProperty (property : Identifier) (c : Cursor) (span : Span) :
    Heeding L o (storeProperty property c span) := by
  refine fun f s h => .withSight fun blocks => .storeResolved property c span _ _ h fun r hres => ?_
  split at hres
  · obtain ⟨x, hx⟩ := Option.isSome_iff_exists.mp (Sight.inClass_exists hres)
    exact ⟨x, hx, fun j hj => L.access h.ready h.own (.member _ _ hres) hx hj⟩
  · cases hres

theorem storeMember (property : Identifier) (segments : List Node) (span : Span) :
    Heeding L o (storeMember property segments span) := by
  refine bind (withReader ?_ ?_) fun c f s h => .withSight fun blocks => ?_
  · exact fun _ => rfl
  · refine lowerSegments (k := Node.weights (segments.map Node.unwrap)) (fun n _ => expression n) _
      (fun n hn => ?_) _
    have := Node.weight_le_weights hn
    omega
  split
  · exact bind (neutral (Neutral.emitPoplist _ _ _)) (fun _ => pure _) f s h
  · split
    · next r hset =>
      have hcall : Composed o.isWatching True (·.Calls r .call c.depth)
          (emitCallTo .call r c.depth span) := .emit (fun debug => ⟨debug, rfl⟩) _
      refine .bind (.writes h hcall fun j hj => ?_) fun _ _ _ ht _ => .pure ht _
      exact L.call h.ready h.own (.setter _ _ c.depth hset) hj
    · exact storeProperty _ _ _ f s h

theorem storeChain (target : Node) : Heeding L o (storeChain target) := by
  refine withSegments fun l hl => ?_
  split
  · next hlast => exact absurd (List.getLast?_eq_none_iff.mp hlast) (Node.segments_ne_nil hl)
  · exact storeMember _ _ _
  · exact silent (.halt rfl _ _)

theorem assignTo (target : Node) (type : Ty) : Heeding L o (assignTo target type) := by
  unfold Lowering.assignTo
  split
  · exact ite (silent (.halt rfl _ _)) (storeIdentifier _ _)
  · exact storeChain _
  · exact silent (.halt rfl _ _)

/-! ## Returning -/

theorem lowerReturned (value : Option Node) (span : Span) :
    Heeding L o (lowerReturned value span) := by
  cases value with
  | some v => exact expression v
  | none => exact bind (neutral (Neutral.emitPush rfl _ _)) fun _ => pure _

theorem checkReturned (procedure : Option Procedure) (type : Ty) (span : Span) :
    Heeding L o (checkReturned procedure type span) := by
  cases procedure with
  | none => exact pure _
  | some p =>
    refine bind (silent .getSession) fun s => ite (bind (silent (.report rfl _ _)) fun _ => ?_) (pure _)
    refine bind (neutral (Neutral.emitPop rfl _ _)) fun _ => ?_
    exact bind (neutral (Neutral.emitPush rfl _ _)) fun _ => pure _

theorem emitLeave : Heeding L o emitLeave := by
  refine bind (silent .read) fun f => neutral (.emit (fun _ => ?_) _)
  exact Instruction.isNeutral_bare (if f.scope.isBody f.block then .ret else .retb)

theorem returnStatement (value : Option Node) (span : Span) :
    Heeding L o (returnStatement value span) := by
  have hresult : Heeding L o (lowerResult value span) := by
    have hrest : ∀ procedure, Heeding L o (finishResult value span procedure) := by
      intro procedure
      refine bind (silent .pc) fun _ => bind (lowerReturned _ _) fun _ => bind (silent .pc) fun _ => ?_
      refine bind (silent (.modifyNode fun _ => ⟨rfl, rfl⟩)) fun _ => ?_
      refine bind (checkReturned _ _ _) fun _ => bind (silent .classScope) fun _ => ?_
      exact bind (neutral (Neutral.emitPop rfl _ _)) fun _ => pure _
    refine bind (silent .currentProcedure?) fun procedure => ?_
    cases procedure with
    | none => exact hrest none
    | some p => exact onlyIf (silent (.halt rfl _ _)) (hrest (some p))
  rw [returnStatement_eq]
  exact bind hresult fun _ => bind emitLeave fun _ => pure _

end Heeding

/-! ## Dependency nodes -/

namespace Heeds

/-- A node that is open is worked on, and is open behind the work. -/
theorem tracking {node : GraphNode} {m : Lower α} (h : Poised o f s) (hopen : IsOpen node s.session)
    (hm : Heeding L o m) : Heeds L o f s (tracking node m) := by
  have hset : Course True (fun _ => False) f s (modify fun s => { s with node } : Lower Unit) := by
    refine .modify rfl fun _ hs n hn => ?_
    rcases hn with rfl | hn
    · exact hopen
    · exact hs n (.inr hn)
  refine .bind (.quiet h.ready hset) fun _ t _ ht _ => ?_
  refine .bind (Heeding.withReader ?_ hm f t (h.next ht)) fun a u _ hu _ => ?_
  · exact fun _ => rfl
  exact .bind (.silent hu .get) fun _ _ _ hv _ => .pure hv _

theorem graphStatement (target value : Node) (span : Span) (isTemporary isLast : Bool)
    (h : Poised o f s) : Heeds L o f s (graphStatement target value span isTemporary isLast) := by
  have hwork : Heeding L o (lowerValueAndStore target value isLast) := by
    refine .bind (.silent .pc) fun _ => .bind (.expression _) fun _ => .bind (.silent .pc) fun _ => ?_
    refine .onlyIf (.silent .recordSplitChain) (.bind (.silent (.refineType _)) fun _ => ?_)
    exact .bind (.assignTo _ _) fun _ => .pure _
  have hfresh := Yields.freshNode (D := True) (P := fun _ => False) (s := s) isTemporary
    fun _ => h.ready.toReady
  refine .bind (.quiet h.ready hfresh.course) fun fresh t hrun ht _ => ?_
  have hopen := hfresh.result fresh t hrun trivial
  refine .bind (.silent ht (.probe value)) fun _ u _ hu htu => ?_
  refine .bind (.tracking (h.next hu) (hopen.grows htu.grows) hwork) fun p v _ hv _ => ?_
  refine .bind (Heeding.neutral (.emitSilent (fun _ => ?_) _) f v (h.next hv)) fun _ x _ hx _ => ?_
  · exact Instruction.isNeutral_bare .depx
  · exact .bind (.silent hx (.note _ _ _)) fun _ y _ hy _ => .pure hy _

theorem commit {node : GraphNode} (hr : Primed o.isWatching f s) (h : IsOpen node s.session) :
    Heeds L o f s (commit node) := .quiet hr (.commit (fun _ => hr.toReady) fun _ => h)

end Heeds

namespace Heeding

/-! ## Splitting chains -/

/-- A statement whose node is held back. -/
theorem holdStatement (g : Frame → Frame) (hg : ∀ f, (g f).site = f.site) (target value : Node)
    (span : Span) (isTemporary isLast : Bool) :
    Heeding L o (do
      hold (← MonadWithReader.withReader g
        (graphStatement target value span isTemporary isLast))) := by
  intro f s h
  have hnode := Yields.graphStatement (D := True) (w := o.isWatching) target value span isTemporary
    isLast fun _ => (h.ready.site (hg f)).toReady
  refine .bind (.withReader (hg f) (.graphStatement target value span isTemporary isLast
    (h.site (hg f)))) fun node t hrun ht _ => .quiet ht (.hold fun _ => ?_)
  exact hnode.result node t hrun trivial

theorem lowerFactors (target : Node) (span : Span) (factor : Node) (anchor : Option Nat)
    (rest : List Node) : Heeding L o (lowerFactors target span factor anchor rest) := by
  have hfactor (temporary factor : Node) (anchor : Option Nat) (isLast : Bool) :=
    holdStatement (L := L) (o := o) (fun f => { f with anchor }) (fun _ => rfl) temporary factor span
      true isLast
  induction rest generalizing factor anchor with
  | nil =>
    refine bind (silent (.nextTemporary _)) fun name => ?_
    have hlast := holdStatement (L := L) (o := o) id (fun _ => rfl) target
      (.identifier (.plain name span)) span false false
    have hboth := bind (hfactor (.identifier (.plain name span)) factor anchor true) fun _ => hlast
    rw [bind_assoc] at hboth
    exact hboth
  | cons segment rest ih =>
    refine bind (silent (.nextTemporary _)) fun name => ?_
    have hboth := bind (hfactor (.identifier (.plain name span)) factor anchor false) fun _ =>
      bind (silent (.pushPointers [segment])) fun _ =>
        ih (.member (.identifier (.plain name span)) segment .dot rest.isEmpty span) none
    rw [bind_assoc] at hboth
    exact hboth

theorem splitChain (target : Node) {segments : List Node} (h : segments ≠ []) (span : Span) :
    Heeding L o (splitChain target segments span) := by
  refine bind (silent .sight) fun v => ?_
  split
  · exact bind (silent (.pushPointers _)) fun _ => lowerFactors _ _ _ _ _
  · exact bind (silent (.pushPointers _)) fun _ => lowerFactors _ _ _ _ _
  · exact absurd rfl h

theorem lowerSplit (target chain : Node) (span : Span) :
    Heeding L o (lowerSplit target chain span) := by
  refine withSegments fun l hl => bind (silent .dropHeld) fun _ => ?_
  refine bind (splitChain target (Node.segments_ne_nil hl) span) fun _ f s h => ?_
  have hheld : ∀ n ∈ s.held, IsOpen n s.session := fun n hn => h.ready.neat n (.inr hn)
  refine .withState (.bind (.silent h.ready .dropHeld) fun _ t _ ht hst => .quiet ht ?_)
  exact .commitAll (fun _ => ht.toReady) fun _ n hn => (hheld n hn).grows hst.grows

/-! ## Statements that only compute and store -/

theorem lowerUpdate (target value : Node) (span : Span) :
    Heeding L o (lowerUpdate target value span) := by
  refine bind (silent (.modifyState (fun _ => rfl) fun _ hs => hs)) fun _ => ?_
  refine bind (silent .getSession) fun s => ite (lowerSplit _ _ _) fun f s h => ?_
  have hnode := Yields.graphStatement (D := True) (w := o.isWatching) target value span false false
    fun _ => h.ready.toReady
  refine .bind (.graphStatement target value span false false h) fun node t hrun ht _ => ?_
  exact .commit ht (hnode.result node t hrun trivial)

theorem lowerReturn (value : Option Node) (span : Span) : Heeding L o (lowerReturn value span) := by
  intro f s h
  have hfresh := Yields.freshNode (D := True) (P := fun _ => False) (s := s) false fun _ => h.ready.toReady
  refine .bind (.quiet h.ready hfresh.course) fun fresh t hrun ht _ => ?_
  have hopen := hfresh.result fresh t hrun trivial
  have hnode := Yields.tracking (D := True) (fun _ => ht.toReady) (fun _ => hopen)
    (Composed.returnStatement value span)
  refine .bind (.tracking (h.next ht) hopen (returnStatement value span)) fun p u hrun' hu _ => ?_
  have hopen' := hnode.result p u hrun' trivial
  refine .bind (.silent hu .classScope) fun cls v _ hv huv => .commit hv ?_
  exact hopen'.grows huv.grows

theorem lowerUnnamed (node : Node) : Heeding L o (lowerUnnamed node) :=
  bind (silent (.nextTemporary _)) fun _ => lowerUpdate _ _ _

theorem lowerCondition (condition : Node) (span : Span) :
    Heeding L o (lowerCondition condition span) := by
  refine bind (expression _) fun _ => bind (silent .classScope) fun _ => ?_
  exact bind (neutral (Neutral.emitPop rfl _ _)) fun _ => pure _

theorem lowerAssignment (target value : Node) : Heeding L o (lowerAssignment target value) := by
  refine bind (silent (.modifyState (fun _ => rfl) fun _ hs => hs)) fun _ => ?_
  exact bind (expression _) fun _ => bind (assignTo _ _) fun _ => pure _

theorem lowerDiscarded (node : Node) : Heeding L o (lowerDiscarded node) := by
  refine bind (expression _) fun _ => bind (silent .classScope) fun _ => ?_
  exact bind (neutral (Neutral.emitPop rfl _ _)) fun _ => pure _

theorem assignment (target value : Node) (span : Span) :
    Heeding L o (statement (.assign target value span)) := by
  rw [statement_eq]
  refine bind (silent .read) fun f => ?_
  cases f.dialect with
  | associative => exact bind (lowerUpdate _ _ _) fun _ => pure _
  | imperative => exact bind (lowerAssignment _ _) fun _ => pure _

theorem lowerVariable (v : Variable) : Heeding L o (lowerVariable statement v) := by
  refine bind (silent (.resolveType _ _)) fun type => bind (silent (.allocate _)) fun r => ?_
  refine fun f s h => .withSymbol fun symbol hx => bind ?_ (fun _ => ?_) f s h
  · exact neutral (Neutral.emitHeapBox symbol)
  unfold initializer?
  cases v.value with
  | none => exact pure _
  | some value => exact bind (assignment _ _ _) fun _ => pure _

end Heeding

end Diglot.Lowering
