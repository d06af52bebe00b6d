import Diglot.Proofs.Origins.Expression

/-! # Stores keep a property

A store refers to the setter of a member, or to the entry of a late-bound one. All else that it emits
refers to nothing.
-/

set_option autoImplicit false

namespace Diglot.Lowering

variable {w : Bool} {K : Keeper w} {path : List Nat} {α β : Type} {f : Frame} {s : State}

theorem Keeping.storeIdentifier {ident : Identifier} (hc : ∀ d ∈ ident.dims, d.CallsOnly K.source)
    (type : Ty) : Keeping K (storeIdentifier ident type) := by
  intro path f s h
  have htarget := Yields.targetSymbol (D := True) (P := fun _ => False) ident type fun _ => h.toReady
  refine .bind (.quiet h htarget.course) fun r t _ ht _ => .withSymbol fun x => ?_
  refine Keeping.bind (.anyDims hc) (fun _ => ?_) path f t (h.next ht)
  have hstore : Keeping K (do
      let _ ← emitStore x ident.dims.length ident.span
      return ([.ofName ident.name (some r) x.classScope] : Path)) :=
    .bind (.plain (Standalone.emitStore _ _ _)) fun _ => .pure _
  refine .ite (.bind (.silent .read) fun _ => .bind (.silent (.recordIndexing _)) fun _ => ?_) hstore
  exact .bind (.silent (.recordSplitDims _ _)) fun _ => hstore

/-- The last segment of an assigned chain is pushed where it was found, or through an entry. -/
theorem Keeping.lowerProperty (property : Identifier) (c : Cursor) (resolution : Resolution)
    (span : Span) : Keeping K (lowerProperty property c resolution span) := by
  cases resolution with
  | found r =>
    refine fun path f s h => .withSymbol fun x => bind (.plain ?_) (fun _ => .pure _) path f s h
    exact Standalone.emitPushm (Operand.ofSymbol_ne_dynamic x) _ _
  | inaccessible r =>
    refine .bind (.silent (.report rfl _ _)) fun _ => ?_
    exact .bind (.plain (Standalone.emitPush _ _ _)) fun _ => .pure _
  | unbound =>
    refine .onlyIf (.silent (.warnUnbound _ _)) fun path f s h => ?_
    refine .bind (.silent h (.registerLateVariable _ _)) fun p t hrun ht _ => ?_
    exact .pushLate (h.next ht) (registerLateVariable_lt hrun) _ _

theorem Keeping.storeProperty {property : Identifier} (hc : ∀ d ∈ property.dims, d.CallsOnly K.source)
    (c : Cursor) (span : Span) : Keeping K (storeProperty property c span) := by
  have hlast (resolution : Resolution) (cls : Option Nat) : Keeping K (do
      let c ← Lowering.lowerProperty property c resolution span
      let _ ← emitPoplist (c.depth + 1) cls span
      return c.path) := by
    refine .bind (lowerProperty property c resolution span) fun c => ?_
    exact .bind (.plain (Standalone.emitPoplist _ _ _)) fun _ => .pure _
  refine .bind (.silent .sight) fun v => .bind (.anyDims hc) fun _ => .ite ?_ (hlast _ _)
  refine .bind (.silent (.recordIndexing _)) fun _ => ?_
  exact .bind (.plain (Standalone.emitPushDims _)) fun _ => hlast _ _

namespace Keeping

/-- A member is stored through its setter where it has one that may be called. -/
theorem storeMember {property : Identifier} (hp : ∀ d ∈ property.dims, d.CallsOnly K.source)
    {segments : List Node} (hc : ∀ n ∈ segments, n.CallsOnly K.source) (span : Span) :
    Keeping K (storeMember property segments span) := by
  have hchain (c : Cursor) : Keeping K (untracked
      (Lowering.lowerSegments Lowering.expression false (segments.map Node.unwrap) c)) := by
    refine withReader ?_ (lowerSegments (k := Node.weights (segments.map Node.unwrap))
      (fun n _ hn => expression hn) _ (fun n hn => ?_) (fun n hn => ?_) _)
    · exact fun _ => rfl
    · have := Node.weight_le_weights hn
      omega
    · obtain ⟨m, hm, rfl⟩ := List.mem_map.mp hn
      exact (hc m hm).unwrap
  refine bind (hchain _) fun c path f s h => .withSight fun blocks => ?_
  split
  · exact bind (plain (Standalone.emitPoplist _ _ _)) (fun _ => pure _) path f s h
  · split
    · next r hset =>
      have hcourse : Course True Instruction.IsPlain f s (emitCallTo .call r c.depth span) :=
        Composed.emitCallTo (by decide) r c.depth span f s fun _ => h.toReady
      refine .bind (.ofCourse h.toPrimed hcourse (K.setter c.depth span h hset)) ?_
      exact fun _ _ _ ht _ => .pure ht _
    · exact storeProperty hp _ _ path f s h

theorem storeChain {target : Node} (hc : target.CallsOnly K.source) :
    Keeping K (storeChain target) := by
  refine withSegments fun l hl => ?_
  have hparts := hc.segments hl
  split
  · next hlast => exact absurd (List.getLast?_eq_none_iff.mp hlast) (Node.segments_ne_nil hl)
  · next property hlast =>
    have hlastPart := hparts _ (List.mem_of_getLast? hlast)
    exact storeMember (fun d hd => hlastPart.part hd)
      (fun n hn => hparts n (List.dropLast_subset l hn)) _
  · exact silent (.halt rfl _ _)

theorem assignTo {target : Node} (hc : target.CallsOnly K.source) (type : Ty) :
    Keeping K (assignTo target type) := by
  unfold Lowering.assignTo
  split
  · exact ite (silent (.halt rfl _ _)) (storeIdentifier (fun d hd => hc.part hd) _)
  · exact storeChain hc
  · exact silent (.halt rfl _ _)

/-! ## Returning -/

theorem emitLeave : Keeping K emitLeave := by
  refine bind (silent .read) fun f => plain (.emit (fun _ => ?_) _)
  unfold Instruction.IsStandalone
  split <;> rfl

theorem checkReturned (procedure : Option Procedure) (type : Ty) (span : Span) :
    Keeping K (checkReturned procedure type span) := by
  cases procedure with
  | none => exact pure _
  | some p =>
    refine bind (silent .getSession) fun s => ite (bind (silent (.report rfl _ _)) fun _ => ?_) (pure _)
    refine bind (plain (Standalone.emitPop _ _ _)) fun _ => ?_
    exact bind (plain (Standalone.emitPush _ _ _)) fun _ => pure _

theorem returnStatement {value : Option Node} (hc : ∀ v ∈ value.toList, v.CallsOnly K.source)
    (span : Span) : Keeping K (returnStatement value span) := by
  have hreturned : Keeping K (lowerReturned value span) := by
    cases value with
    | some v => exact expression (hc v (List.mem_singleton_self v))
    | none => exact bind (plain (Standalone.emitPush _ _ _)) fun _ => pure _
  have hresult : Keeping K (lowerResult value span) := by
    have hrest : ∀ procedure, Keeping K (finishResult value span procedure) := by
      intro procedure
      refine bind (silent .pc) fun _ => bind hreturned fun _ => bind (silent .pc) fun _ => ?_
      refine bind (silent (.modifyNode fun _ => ⟨rfl, rfl⟩)) fun _ => ?_
      refine bind (checkReturned _ _ _) fun _ => bind (silent .classScope) fun _ => ?_
      exact bind (plain (Standalone.emitPop _ _ _)) fun _ => pure _
    refine bind (silent .currentProcedure?) fun procedure => ?_
    cases procedure with
    | none => exact hrest none
    | some p => exact onlyIf (silent (.halt rfl _ _)) (hrest (some p))
  rw [returnStatement_eq]
  exact bind hresult fun _ => bind emitLeave fun _ => pure _

end Keeping

/-! ## Dependency nodes -/

namespace Protects

/-- A node that is open is worked on, and is open behind the work. -/
theorem tracking {node : GraphNode} {m : Lower α} (h : Nested w path f s) (hopen : IsOpen node s.session)
    (hm : Keeping K m) : Protects K path f s (tracking node m) := by
  have hset : Course True (fun _ => False) f s (modify fun s => { s with node } : Lower Unit) := by
    refine .modify rfl fun _ hs n hn => ?_
    rcases hn with rfl | hn
    · exact hopen
    · exact hs n (.inr hn)
  refine .bind (.quiet h hset) fun _ t _ ht _ => ?_
  refine .bind (Keeping.withReader ?_ hm path f t (h.next ht)) fun a u _ hu _ => ?_
  · exact fun _ => rfl
  exact .bind (.silent (h.next hu) .get) fun _ _ _ hv _ => .pure hv _

theorem graphStatement {target value : Node} (ht : target.CallsOnly K.source)
    (hv : value.CallsOnly K.source) (span : Span) (isTemporary isLast : Bool) (h : Nested w path f s) :
    Protects K path f s (graphStatement target value span isTemporary isLast) := by
  have hwork : Keeping K (lowerValueAndStore target value isLast) := by
    refine .bind (.silent .pc) fun _ => .bind (.expression hv) fun _ => .bind (.silent .pc) fun _ => ?_
    refine .onlyIf (.silent .recordSplitChain) (.bind (.silent (.refineType _)) fun _ => ?_)
    exact .bind (.assignTo ht _) fun _ => .pure _
  have hfresh := Yields.freshNode (D := True) (P := fun _ => False) (s := s) isTemporary
    fun _ => h.toReady
  refine .bind (.quiet h hfresh.course) fun fresh t hrun ht _ => ?_
  have hopen := hfresh.result fresh t hrun trivial
  refine .bind (.silent (h.next ht) (.probe value)) fun _ u _ hu htu => ?_
  refine .bind (.tracking (h.next hu) (hopen.grows htu.grows) hwork) fun p v _ hv _ => ?_
  refine .bind (Keeping.plain (.emitSilent (fun _ => rfl) _) path f v (h.next hv)) fun _ x _ hx _ => ?_
  exact .bind (.silent (h.next hx) (.note _ _ _)) fun _ y _ hy _ => .pure hy _

theorem commit {node : GraphNode} (h : Nested w path f s) (hopen : IsOpen node s.session) :
    Protects K path f s (commit node) := .quiet h (.commit (fun _ => h.toReady) fun _ => hopen)

end Protects

namespace Keeping

/-! ## Splitting chains -/

/-- A statement whose node is held back. -/
theorem holdStatement (g : Frame → Frame) (hg : ∀ f, (g f).site = f.site) {target value : Node}
    (ht : target.CallsOnly K.source) (hv : value.CallsOnly K.source) (span : Span)
    (isTemporary isLast : Bool) :
    Keeping K (do
      hold (← MonadWithReader.withReader g
        (graphStatement target value span isTemporary isLast))) := by
  intro path f s h
  have hnode := Yields.graphStatement (D := True) (w := w) target value span isTemporary isLast
    fun _ => (h.site (hg f)).toReady
  refine .bind (.withReader (hg f) (.graphStatement ht hv span isTemporary isLast (h.site (hg f))))
    fun node t hrun ht _ => .quiet (h.next ht) (.hold fun _ => ?_)
  exact hnode.result node t hrun trivial

theorem lowerFactors {target : Node} (ht : target.CallsOnly K.source) (span : Span) {factor : Node}
    (hf : factor.CallsOnly K.source) (anchor : Option Nat) {rest : List Node}
    (hr : ∀ n ∈ rest, n.CallsOnly K.source) :
    Keeping K (lowerFactors target span factor anchor rest) := by
  have hfactor {factor : Node} (hf : factor.CallsOnly K.source) (name : String) (anchor : Option Nat)
      (isLast : Bool) :=
    holdStatement (fun f => { f with anchor }) (fun _ => rfl) (.plain name span) hf span true isLast
  induction rest generalizing factor anchor with
  | nil =>
    refine bind (silent (.nextTemporary _)) fun name => ?_
    have hlast := holdStatement id (fun _ => rfl) ht (.plain name span) span false false
    have hboth := bind (hfactor hf name anchor true) fun _ => hlast
    rw [bind_assoc] at hboth
    exact hboth
  | cons segment rest ih =>
    have hsegment := hr segment (List.mem_cons_self ..)
    have hrest (factor : Node) (hf : factor.CallsOnly K.source) := ih hf none fun n hn =>
      hr n (List.mem_cons_of_mem segment hn)
    refine bind (silent (.nextTemporary _)) fun name => ?_
    have hboth := bind (hfactor hf name anchor false) fun _ =>
      bind (silent (.pushPointers [segment])) fun _ =>
        hrest (.member (.identifier (.plain name span)) segment .dot rest.isEmpty span)
          (.join (.plain name span) hsegment)
    rw [bind_assoc] at hboth
    exact hboth

theorem splitChain {target : Node} (ht : target.CallsOnly K.source) {segments : List Node}
    (hne : segments ≠ []) (hc : ∀ n ∈ segments, n.CallsOnly K.source) (span : Span) :
    Keeping K (splitChain target segments span) := by
  refine bind (silent .sight) fun v => ?_
  split
  · next root second rest _ =>
    refine bind (silent (.pushPointers _)) fun _ => lowerFactors ht _ ?_ _ fun n hn => ?_
    · exact .join (hc root (by simp)) (hc second (by simp))
    · exact hc n (List.mem_cons_of_mem _ (List.mem_cons_of_mem _ hn))
  · next root rest _ =>
    refine bind (silent (.pushPointers _)) fun _ => lowerFactors ht _ ?_ _ fun n hn => ?_
    · exact hc root (List.mem_cons_self ..)
    · exact hc n (List.mem_cons_of_mem _ hn)
  · exact absurd rfl hne

theorem lowerSplit {target chain : Node} (ht : target.CallsOnly K.source)
    (hc : chain.CallsOnly K.source) (span : Span) : Keeping K (lowerSplit target chain span) := by
  refine withSegments fun l hl => bind (silent .dropHeld) fun _ => ?_
  refine bind (splitChain ht (Node.segments_ne_nil hl) (hc.segments hl) span) fun _ path f s h => ?_
  have hheld : ∀ n ∈ s.held, IsOpen n s.session := fun n hn => h.neat n (.inr hn)
  refine .withState (.bind (.silent h .dropHeld) fun _ t _ ht hst => .quiet (h.next ht) ?_)
  exact .commitAll (fun _ => ht.toReady) fun _ n hn => (hheld n hn).grows hst.grows

/-! ## Statements that only compute and store -/

theorem lowerUpdate {target value : Node} (ht : target.CallsOnly K.source)
    (hv : value.CallsOnly K.source) (span : Span) : Keeping K (lowerUpdate target value span) := by
  refine bind (silent (.modifyState (fun _ => rfl) fun _ hs => hs)) fun _ => ?_
  refine bind (silent .getSession) fun s => ite (lowerSplit ht hv _) fun path f s h => ?_
  have hnode := Yields.graphStatement (D := True) (w := w) target value span false false
    fun _ => h.toReady
  refine .bind (.graphStatement ht hv span false false h) fun node t hrun ht _ => ?_
  exact .commit (h.next ht) (hnode.result node t hrun trivial)

theorem lowerReturn {value : Option Node} (hc : ∀ v ∈ value.toList, v.CallsOnly K.source) (span : Span) :
    Keeping K (lowerReturn value span) := by
  intro path f s h
  have hfresh := Yields.freshNode (D := True) (P := fun _ => False) (s := s) false fun _ => h.toReady
  refine .bind (.quiet h hfresh.course) fun fresh t hrun ht _ => ?_
  have hopen := hfresh.result fresh t hrun trivial
  have hnode := Yields.tracking (D := True) (fun _ => ht.toReady) (fun _ => hopen)
    (Composed.returnStatement value span)
  refine .bind (.tracking (h.next ht) hopen (returnStatement hc span)) fun p u hrun' hu _ => ?_
  have hopen' := hnode.result p u hrun' trivial
  refine .bind (.silent (h.next hu) .classScope) fun cls v _ hv huv => .commit (h.next hv) ?_
  exact hopen'.grows huv.grows

theorem lowerUnnamed {node : Node} (hc : node.CallsOnly K.source) : Keeping K (lowerUnnamed node) :=
  bind (silent (.nextTemporary _)) fun _ => lowerUpdate (.plain _ _) hc _

theorem lowerCondition {condition : Node} (hc : condition.CallsOnly K.source) (span : Span) :
    Keeping K (lowerCondition condition span) := by
  refine bind (expression hc) fun _ => bind (silent .classScope) fun _ => ?_
  exact bind (plain (Standalone.emitPop _ _ _)) fun _ => pure _

theorem lowerAssignment {target value : Node} (ht : target.CallsOnly K.source)
    (hv : value.CallsOnly K.source) : Keeping K (lowerAssignment target value) := by
  refine bind (silent (.modifyState (fun _ => rfl) fun _ hs => hs)) fun _ => ?_
  exact bind (expression hv) fun _ => bind (assignTo ht _) fun _ => pure _

theorem lowerDiscarded {node : Node} (hc : node.CallsOnly K.source) :
    Keeping K (lowerDiscarded node) := by
  refine bind (expression hc) fun _ => bind (silent .classScope) fun _ => ?_
  exact bind (plain (Standalone.emitPop _ _ _)) fun _ => pure _

theorem assignment {target value : Node} (ht : target.CallsOnly K.source)
    (hv : value.CallsOnly K.source) (span : Span) :
    Keeping K (statement (.assign target value span)) := by
  rw [statement_eq]
  refine bind (silent .read) fun f => ?_
  cases f.dialect with
  | associative => exact bind (lowerUpdate ht hv _) fun _ => pure _
  | imperative => exact bind (lowerAssignment ht hv) fun _ => pure _

theorem lowerVariable {v : Variable} (hc : ∀ value ∈ v.value.toList, value.CallsOnly K.source) :
    Keeping K (lowerVariable statement v) := by
  refine bind (silent (.resolveType _ _)) fun type => bind (silent (.allocate _)) fun r => ?_
  refine fun path f s h => .withSymbol fun symbol => bind ?_ (fun _ => ?_) path f s h
  · exact plain (Standalone.emitHeapBox symbol)
  unfold initializer?
  cases hvalue : v.value with
  | none => exact pure _
  | some value =>
    refine bind (assignment (.plain _ _) (hc value ?_) _) fun _ => pure _
    rw [hvalue]
    exact List.mem_singleton_self value

end Keeping

end Diglot.Lowering
