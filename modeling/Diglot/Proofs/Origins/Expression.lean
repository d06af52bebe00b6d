import Diglot.Proofs.Origins.Basic

/-! # Expressions keep a property

Most of what an expression emits refers to nothing. A call refers to what it was found to reach before its
arguments were lowered, and a late-bound member to an entry that was made before its subscripts were.
-/

set_option autoImplicit false

namespace Diglot.Lowering

variable {w : Bool} {D : Prop}

/-! ## Steps that emit no reference -/

theorem Operand.ofSymbol_ne_dynamic (x : Symbol) (n : Nat) : Operand.ofSymbol x ≠ .dynamic n := by
  unfold Operand.ofSymbol
  split
  · split <;> exact Operand.noConfusion
  · exact Operand.noConfusion

namespace Standalone

open Instruction

theorem emitPush (operand : Operand) (dims : Nat) (span : Span) :
    Composed w D IsStandalone (emitPush operand dims span) :=
  .withClass fun _ => .emit (fun _ => rfl) span

theorem emitPushm {operand : Operand} (h : ∀ n, operand ≠ .dynamic n) (cls : Option Nat) (span : Span) :
    Composed w D IsStandalone (emitPushm operand cls span) := by
  refine .withBlock fun _ => .emit (fun _ => ?_) span
  cases operand with
  | dynamic n => exact absurd rfl (h n)
  | _ => rfl

theorem emitPushlist (depth : Nat) (afterCall : Bool) (span : Span) :
    Composed w D IsStandalone (emitPushlist depth afterCall span) :=
  .withClass fun _ => .withBlock fun _ => .emitSilent (fun _ => rfl) span

theorem emitPushIndex (operand : Operand) : Composed w D IsStandalone (emitPushIndex operand) :=
  .emitSilent (fun _ => rfl) .nil

theorem emitPushDims (dims : Nat) : Composed w D IsStandalone (emitPushDims dims) :=
  .withClass fun _ => .emitSilent (fun _ => rfl) .nil

theorem emitPop (operand : Operand) (cls : Option Nat) (span : Span) :
    Composed w D IsStandalone (emitPop operand cls span) := .emit (fun _ => rfl) span

theorem emitStore (symbol : Symbol) (dims : Nat) (span : Span) :
    Composed w D IsStandalone (emitStore symbol dims span) := by
  have hpush {operand : Operand} {cls : Operand} :
      Composed w D IsStandalone (emitSilent (.binary .push operand cls) .nil) :=
    .emitSilent (fun _ => rfl) .nil
  refine .bind (.withClass fun _ => .bind hpush fun _ => .bind hpush fun _ => ?_) fun _ => ?_
  · exact .withClass fun _ => hpush
  · exact .bind .getSession fun _ => .ite (.emitSilent (fun _ => rfl) span) (.emit (fun _ => rfl) span)

theorem emitPoplist (depth : Nat) (start : Option Nat) (span : Span) :
    Composed w D IsStandalone (emitPoplist depth start span) :=
  .withBlock fun _ => .emit (fun _ => rfl) span

theorem emitAlloca (count : Nat) (isString : Bool) :
    Composed w D IsStandalone (emitAlloca count isString) := .emitSilent (fun _ => rfl) .nil

theorem emitHeapBox (symbol : Symbol) : Composed w D IsStandalone (emitHeapBox symbol) := by
  unfold Lowering.emitHeapBox
  split
  · exact .pure _
  · refine .bind (.emitSilent (fun _ => rfl) .nil) fun _ => ?_
    exact .bind (.emitSilent (fun _ => rfl) .nil) fun _ => .pure _

theorem emitGuides (guides : List Guide) : Composed w D IsStandalone (emitGuides guides) := by
  refine .bind (.forM fun g _ => ?_) fun _ => ?_
  · exact .bind (emitPush _ _ _) fun _ => .pure _
  · exact .bind (emitPushIndex _) fun _ => .pure _

theorem lowerString (source : String) (span : Span) :
    Composed w D IsStandalone (lowerString source span) := by
  refine .bind (.forM fun c _ => ?_) fun _ => ?_
  · exact .bind (emitPush _ _ _) fun _ => .pure _
  · exact .bind (emitAlloca _ _) fun _ => .pure _

theorem lowerLiteral (kind : LiteralKind) (source : String) (span : Span) (expected : Ty) :
    Composed w D IsStandalone (lowerLiteral kind source span expected) := by
  refine .bind .getSession fun s => .bind .guidesWanted fun on => .onlyIf (emitPushIndex _) ?_
  cases kind with
  | string => exact .bind (lowerString _ _) fun _ => .pure _
  | _ =>
    refine .withLiteral (by decide) _ _ fun o _ => ?_
    exact .bind (emitPush o _ _) fun _ => .pure _

theorem stopChain (c : Cursor) (span : Span) : Composed w D IsStandalone (stopChain c span) :=
  .bind (emitPush _ _ _) fun _ => .pure _

theorem lowerThis (ident : Identifier) (c : Cursor) :
    Composed w D IsStandalone (lowerThis ident c) := by
  refine .bind .classScope fun cls => .ite ?_ ?_
  · exact .bind (emitPush _ _ _) fun _ => .pure _
  · exact .bind (emitPushm (fun _ => Operand.noConfusion) _ _) fun _ => .pure _

theorem lowerClassName (ident : Identifier) (c : Cursor) (cls : Nat) :
    Composed w D IsStandalone (lowerClassName ident c cls) := by
  refine .ite ?_ ?_
  · exact .bind (emitPush _ _ _) fun _ => .pure _
  · exact .bind (emitPushm (fun _ => Operand.noConfusion) _ _) fun _ => .pure _

theorem lowerInaccessible (ident : Identifier) (c : Cursor) :
    Composed w D IsStandalone (lowerInaccessible ident c) :=
  .bind (.report rfl _ _) fun _ => .bind .sight fun _ => stopChain _ _

end Standalone

/-! ## Segments of a chain -/

variable {K : Keeper w} {path : List Nat} {f : Frame} {s : State}

/-- A late-bound member has an entry. -/
theorem registerLateVariable_lt {name : String} {c : Cursor} {p : Nat × Cursor} {t : State}
    (h : registerLateVariable name c f s = .ok p t) : p.1 < t.session.lateVariables.size := by
  have hnew (hrun : openLateVariable name c s.session f s = .ok p t) : p.1 < t.session.lateVariables.size := by
    cases hrun
    simp
  unfold registerLateVariable at h
  simp only [run_bind, run_getSession] at h
  cases hlate : c.lateEntry with
  | none =>
    rw [hlate] at h
    exact hnew h
  | some i =>
    rw [hlate] at h
    dsimp only at h
    split at h
    · next hlt =>
      cases h
      simpa using hlt
    · exact hnew h

/-- The segments of a chain are those of its source. -/
theorem Keeping.withSegments {α : Type} {node : Node} {k : List Node → Lower α}
    (hk : ∀ l, node.segments = .ok l → Keeping K (k l)) : Keeping K (chainSegments node >>= k) := by
  unfold chainSegments
  split
  · next l hl =>
    rw [pure_bind]
    exact hk l hl
  · refine fun path f s h => .bind (.silent h (.halt rfl _ _)) fun _ _ hrun => ?_
    cases hrun

/-- A late-bound member is read through its entry. -/
theorem Protects.pushLate {n : Nat} (h : Nested w path f s) (hn : n < s.session.lateVariables.size)
    (span : Span) (c : Cursor) : Protects K path f s (do
      let _ ← emitPushm (.dynamic n) (← classScope) span
      return c) := by
  have hcourse : Course True Instruction.IsPlain f s (emitPushm (.dynamic n) f.scope.classScope span) :=
    Composed.emitPushm rfl _ _ f s fun _ => h.toReady
  have hkept := Protects.ofCourse h.toPrimed hcourse (K.member _ span h hn)
  exact .withFrame (.bind hkept fun _ _ _ ht _ => .pure ht _)

/-- The call of a procedure that was found before its arguments were lowered. -/
theorem Protects.lowerKnownCall {call : Call} {c : Cursor} {r : ProcRef} {t : State} {blocks : List Nat}
    (h : Nested w path f s) (hsource : K.source call.name call.args)
    (htarget : Sight.callTarget ⟨s.session, f, blocks⟩ call.name call.args.length c = .procedure r)
    (hargs : lowerArgs call.args f s = .ok () t) (ht : Nested w path f t)
    (hst : s.session.Advances t.session) : Protects K path f t (lowerKnownCall call c r) := by
  obtain ⟨p, hp⟩ := Option.isSome_iff_exists.mp (Sight.callTarget_exists h.tidy htarget)
  obtain ⟨block, entry, locals, hp'⟩ := hst.procedures r p hp
  have hcourse : Course True Instruction.IsPlain f t (Lowering.lowerKnownCall call c r) :=
    .lowerKnownCall call c (fun _ => ht.toReady) fun _ => by rw [hp']; rfl
  exact .ofCourse ht.toPrimed hcourse (K.known h hsource htarget hargs ht hst)

section
variable {k : Nat}
  (hpart : ∀ n : Node, n.weight ≤ k → n.CallsOnly K.source → Keeping K (expression n))
include hpart

theorem Keeping.lowerDims {dims : List Node} (hd : Node.weights dims ≤ k)
    (hc : ∀ d ∈ dims, d.CallsOnly K.source) : Keeping K (lowerDims expression dims) := by
  refine .unguided (.forM fun d hmem => .bind (hpart d ?_ (hc d hmem)) fun _ => .pure _)
  exact Nat.le_trans (Node.weight_le_weights hmem) hd

theorem Keeping.lowerArgs {args : List Node} (ha : Node.weights args ≤ k)
    (hc : ∀ a ∈ args, a.CallsOnly K.source) : Keeping K (lowerArgs args) := by
  refine .forM fun a hmem => .bind (hpart a ?_ (hc a hmem)) fun _ => .pure _
  exact Nat.le_trans (Node.weight_le_weights hmem) ha

theorem Keeping.lowerSymbol {ident : Identifier} (hi : Node.weights ident.dims ≤ k)
    (hc : ∀ d ∈ ident.dims, d.CallsOnly K.source) (c : Cursor) (r : SymbolRef) :
    Keeping K (lowerSymbol expression ident c r) := by
  refine fun path f s h => .withSymbol fun x => ?_
  split
  · refine Keeping.bind (.silent .sight) (fun v => ?_) path f s h
    exact .bind (.silent (.report rfl _ _)) fun _ => .plain (Standalone.stopChain c ident.span)
  · have hpushm : Composed w True Instruction.IsStandalone
        (emitPushm (.ofSymbol x) x.classScope ident.span) :=
      Standalone.emitPushm (Operand.ofSymbol_ne_dynamic x) _ _
    refine Keeping.bind (lowerDims hpart hi hc) (fun _ => ?_) path f s h
    refine .bind (.silent .read) fun _ => .bind (.silent (.recordSplitDims _ _)) fun _ => ?_
    refine .ite (.bind (.plain (Standalone.emitPush _ _ _)) fun _ => .pure _) ?_
    refine .onlyIf (.plain (Standalone.emitPushDims _)) ?_
    exact .bind (.plain hpushm) fun _ => .pure _

/-- The entry of a late-bound member is there before the subscripts are lowered, and stays. -/
theorem Keeping.lowerLate {ident : Identifier} (hi : Node.weights ident.dims ≤ k)
    (hc : ∀ d ∈ ident.dims, d.CallsOnly K.source) (c : Cursor) :
    Keeping K (lowerLate expression ident c) := by
  refine .onlyIf (.silent (.warnUnbound _ _)) fun path f s h => ?_
  refine .bind (.silent h (.registerLateVariable _ _)) fun p t hrun ht _ => ?_
  have hlt := registerLateVariable_lt hrun
  refine .bind (lowerDims hpart hi hc path f t (h.next ht)) fun _ u _ hu htu => ?_
  have hlt' : p.1 < u.session.lateVariables.size := Nat.lt_of_lt_of_le hlt htu.members
  dsimp only
  split
  · refine .bind (Keeping.plain (Standalone.emitPushDims _) path f u (h.next hu)) ?_
    exact fun _ v _ hv huv => .pushLate (h.next hv) (Nat.lt_of_lt_of_le hlt' huv.members) _ _
  · exact .pushLate (h.next hu) hlt' _ _

/-- A symbol is read where the name was found to stand for it. -/
theorem Keeping.lowerIdentifier {ident : Identifier} (hi : Node.weights ident.dims ≤ k)
    (hc : ∀ d ∈ ident.dims, d.CallsOnly K.source) (c : Cursor) :
    Keeping K (lowerIdentifier expression ident c) := by
  refine .ite (.plain (Standalone.lowerThis _ _)) (.bind (.silent .sight) fun v => ?_)
  cases v.segmentTarget ident.name c with
  | symbol r => exact lowerSymbol hpart hi hc c r
  | cls id => exact .plain (Standalone.lowerClassName ident c id)
  | inaccessible => exact .plain (Standalone.lowerInaccessible ident c)
  | arrayReceiver => exact .plain (Standalone.stopChain c ident.span)
  | unbound =>
    refine .ite (.bind (.silent (.warnUnbound _ _)) fun _ => ?_) (lowerLate hpart hi hc c)
    exact .plain (Standalone.stopChain _ _)

/-- A call refers to what was found before its arguments were lowered. -/
theorem Protects.lowerInvocation {call : Call} (ha : Node.weights call.args ≤ k)
    (hd : Node.weights call.dims ≤ k) (hc : (Node.call call).CallsOnly K.source) (c : Cursor)
    (target : Option ProcRef) (blocks : List Nat) (h : Nested w path f s)
    (htarget : ∀ r, target = some r →
      Sight.callTarget ⟨s.session, f, blocks⟩ call.name call.args.length c = .procedure r) :
    Protects K path f s (lowerInvocation expression call c target) := by
  have hargs : Keeping K (Lowering.lowerArgs call.args) :=
    .lowerArgs hpart ha fun a hmem => hc.part (List.mem_append_left _ hmem)
  have hrest (p : Ty × Segment) : Keeping K (finishInvocation expression call c target p) := by
    refine .bind (.lowerDims hpart hd fun d hmem => hc.part (List.mem_append_right _ hmem)) fun _ => ?_
    refine .onlyIf (.plain (Standalone.emitPushIndex _)) ?_
    exact .bind (.silent .read) fun _ => .pure _
  refine .bind (hargs path f s h) fun _ t hrun ht hst => ?_
  have hnext := h.next ht
  cases target with
  | some r =>
    have hcall := Protects.lowerKnownCall h hc.call (htarget r rfl) hrun hnext hst
    exact .bind hcall fun p u _ hu _ => hrest p path f u (h.next hu)
  | none =>
    have hcourse := Composed.lowerLateCall (D := True) call c f t fun _ => ht.toReady
    refine .bind (.ofCourse ht hcourse (K.late c h hc.call hrun hnext)) fun p u _ hu _ => ?_
    exact hrest p path f u (h.next hu)

namespace Keeping

theorem lowerResolvedCall {call : Call} (ha : Node.weights call.args ≤ k)
    (hd : Node.weights call.dims ≤ k) (hc : (Node.call call).CallsOnly K.source) (c : Cursor) :
    Keeping K (lowerResolvedCall expression call c) := by
  refine fun path f s h => .withSight fun blocks => ?_
  have hstops (issue : Issue) (hissue : issue.isHalting = false) (message : String) :
      Protects K path f s (do
        report issue message call.span
        stopChain c call.span) :=
    bind (.silent (.report hissue _ _)) (fun _ => .plain (Standalone.stopChain _ _)) path f s h
  cases htarget : Sight.callTarget ⟨s.session, f, blocks⟩ call.name call.args.length c with
  | procedure r =>
    refine .lowerInvocation hpart ha hd hc c (some r) blocks h fun r' hr' => ?_
    cases hr'
    exact htarget
  | unresolved =>
    exact .lowerInvocation hpart ha hd hc c none blocks h fun r' hr' => by cases hr'
  | nonStatic => exact hstops _ rfl _
  | inaccessible => exact hstops _ rfl _
  | arrayReceiver => exact plain (Standalone.stopChain _ _) path f s h

theorem lowerCall {call : Call} (ha : Node.weights call.args ≤ k)
    (hd : Node.weights call.dims ≤ k) (hc : (Node.call call).CallsOnly K.source) (c : Cursor) :
    Keeping K (lowerCall expression call c) := by
  refine guidedCall (bind (.silent .sight) fun v => ?_)
  split
  · next property _ =>
    let ident : Identifier := ⟨property, call.dims, [], call.span⟩
    have hdims : ∀ d ∈ ident.dims, d.CallsOnly K.source :=
      fun d hmem => hc.part (List.mem_append_right _ hmem)
    have hweight : Node.weights ident.dims ≤ k := hd
    exact lowerIdentifier hpart hweight hdims c
  · exact lowerResolvedCall hpart ha hd hc c

theorem lowerSegment (isRoot : Bool) {segment : Node} (hs : segment.weight ≤ k + 1)
    (hv : isValueRoot segment = true → segment.weight ≤ k) (hc : segment.CallsOnly K.source)
    (c : Cursor) : Keeping K (lowerSegment expression isRoot segment c) := by
  unfold Lowering.lowerSegment
  cases segment with
  | identifier ident =>
    refine lowerIdentifier hpart ?_ (fun d hmem => hc.part hmem) c
    cases ident
    simp only [Node.weight, Identifier.weight] at hs
    exact Nat.le_of_succ_le_succ hs
  | call call =>
    cases call
    simp only [Node.weight, Call.weight] at hs
    refine lowerCall hpart ?_ ?_ hc c <;> dsimp only <;> omega
  | _ =>
    dsimp only
    split
    · next hroot =>
      refine bind (hpart _ (hv ?_) hc) fun _ => pure _
      exact (Bool.and_eq_true _ _ ▸ hroot).2
    · exact silent (.halt rfl _ _)

theorem lowerSegments (isRoot : Bool) {segments : List Node}
    (hs : ∀ n ∈ segments, n.weight ≤ k + 1 ∧ (isValueRoot n = true → n.weight ≤ k))
    (hc : ∀ n ∈ segments, n.CallsOnly K.source) (c : Cursor) :
    Keeping K (lowerSegments expression isRoot segments c) := by
  induction segments generalizing isRoot c with
  | nil => exact pure _
  | cons n rest ih =>
    obtain ⟨hn, hv⟩ := hs n (List.mem_cons_self ..)
    have hfirst := lowerSegment hpart isRoot hn hv (hc n (List.mem_cons_self ..)) c
    refine ite (pure _) (bind hfirst fun c => ih false (fun m hm => ?_) (fun m hm => ?_) c)
    · exact hs m (List.mem_cons_of_mem n hm)
    · exact hc m (List.mem_cons_of_mem n hm)

theorem lowerChain {segments : List Node} (span : Span) (hne : segments ≠ [])
    (hs : ∀ n ∈ segments, n.unwrap.weight ≤ k + 1 ∧
      (isValueRoot n.unwrap = true → n.unwrap.weight ≤ k))
    (hc : ∀ n ∈ segments, n.CallsOnly K.source) :
    Keeping K (lowerChain expression segments span) := by
  have hparts : ∀ n ∈ segments.map Node.unwrap,
      (n.weight ≤ k + 1 ∧ (isValueRoot n = true → n.weight ≤ k)) ∧ n.CallsOnly K.source := by
    intro n hn
    obtain ⟨m, hm, rfl⟩ := List.mem_map.mp hn
    exact ⟨hs m hm, (hc m hm).unwrap⟩
  have hsegments (c : Cursor) := lowerSegments hpart true (fun n hn => (hparts n hn).1)
    (fun n hn => (hparts n hn).2) c
  unfold Lowering.lowerChain
  rw [if_neg (by simpa using hne)]
  refine bind (.silent .guidesWanted) fun on => onlyIf (.plain (Standalone.emitGuides _)) ?_
  refine bind (hsegments _) fun c => onlyIf (.plain (Standalone.emitPushlist _ _ _)) ?_
  exact bind (.silent (.recordRead _ _)) fun _ => pure _

/-! ## Expressions -/

theorem lowerItems (common : Option Ty) {items : List Node} (hi : Node.weights items ≤ k)
    (hc : ∀ n ∈ items, n.CallsOnly K.source) : Keeping K (lowerItems expression common items) := by
  induction items generalizing common with
  | nil => exact pure _
  | cons item rest ih =>
    simp only [Node.weights] at hi
    have hrest := fun common => ih common (by omega) fun n hn => hc n (List.mem_cons_of_mem item hn)
    unfold Lowering.lowerItems
    split
    · exact bind (.plain (Standalone.lowerLiteral _ _ _ _)) fun _ => hrest _
    · exact bind (hpart _ (by omega) (hc _ (List.mem_cons_self ..))) fun _ => hrest _

theorem lowerList {items dims : List Node} (hi : Node.weights items ≤ k)
    (hd : Node.weights dims ≤ k) (hc : ∀ n ∈ items ++ dims, n.CallsOnly K.source)
    (guides : List Guide) : Keeping K (lowerList expression items dims guides) := by
  have hitems := lowerItems hpart none hi fun n hn => hc n (List.mem_append_left _ hn)
  refine bind (unguided hitems) fun common => ?_
  refine bind (.plain (Standalone.emitAlloca _ _)) fun _ => ?_
  refine bind (lowerDims hpart hd fun n hn => hc n (List.mem_append_right _ hn)) fun _ => ?_
  refine onlyIf (.plain (Standalone.emitPushIndex _)) (bind (.silent .guidesWanted) fun on => ?_)
  exact onlyIf (.plain (Standalone.emitGuides _)) (pure _)

theorem lowerRange {first last : Node} {step : Option Node} (hf : first.weight ≤ k)
    (hl : last.weight ≤ k) (hs : Node.optWeight step ≤ k)
    (hc : ∀ n ∈ first :: last :: step.toList, n.CallsOnly K.source) (span : Span) :
    Keeping K (lowerRange expression first last step span) := by
  refine bind (hpart _ hf (hc _ (by simp))) fun _ => bind (hpart _ hl (hc _ (by simp))) fun _ => ?_
  have hrange : Keeping K (do
      let _ ← emit (.bare .range) span
      return (⟨some Primitive.var.uid, 1⟩ : Ty)) :=
    bind (.plain (.emit (fun _ => rfl) span)) fun _ => pure _
  cases step with
  | some step => exact bind (hpart step hs (hc _ (by simp))) fun _ => hrange
  | none => exact bind (.plain (Standalone.emitPush _ _ _)) fun _ => hrange

theorem lowerUnary (op : UnaryOperator) {operand : Node} (ho : operand.weight ≤ k)
    (hc : operand.CallsOnly K.source) (span : Span) :
    Keeping K (lowerUnary expression op operand span) := by
  refine bind (hpart _ ho hc) fun _ => bind (.silent .classScope) fun cls => ?_
  refine bind (.plain (Standalone.emitPop _ _ _)) fun _ => ?_
  refine bind (.plain (.emit (fun _ => ?_) span)) fun _ => ?_
  · cases op <;> rfl
  · exact bind (.plain (Standalone.emitPush _ _ _)) fun _ => pure _

theorem lowerBinary {left right : Node} (hl : left.weight ≤ k) (hr : right.weight ≤ k)
    (hcl : left.CallsOnly K.source) (hcr : right.CallsOnly K.source) (op : Operator) (span : Span) :
    Keeping K (lowerBinary expression left op right span) := by
  unfold Lowering.lowerBinary
  split
  · exact silent (.halt rfl _ _)
  · next opcode hop =>
    refine bind (hpart _ hl hcl) fun _ => bind (hpart _ hr hcr) fun _ => ?_
    refine bind (.silent .classScope) fun cls => bind (.plain (Standalone.emitPop _ _ _)) fun _ => ?_
    refine bind (.plain (Standalone.emitPop _ _ _)) fun _ => ?_
    refine bind (.plain (.emit (fun _ => ?_) span)) fun _ => ?_
    · cases op <;> cases hop <;> rfl
    · exact bind (.plain (Standalone.emitPush _ _ _)) fun _ => pure _

theorem lowerGroup {inner : Node} {dims : List Node} (hi : inner.weight + Node.weights dims ≤ k)
    (hc : inner.CallsOnly K.source) (hcd : ∀ n ∈ dims, n.CallsOnly K.source) (guides : List Guide) :
    Keeping K (lowerGroup expression inner dims guides) := by
  have hmoved := hpart _ (Nat.le_trans (Node.weight_ungroup_le inner dims guides) hi) (hc.ungroup hcd)
  refine ite hmoved (bind (hpart _ (by omega) hc) fun type => ?_)
  refine bind (lowerDims hpart (by omega) hcd) fun _ => ?_
  exact onlyIf (.plain (Standalone.emitPushIndex _)) (pure _)

end Keeping

end

theorem Keeping.lowerNode {n : Node} (hc : n.CallsOnly K.source)
    (h : ∀ m : Node, m.weight < n.weight → m.CallsOnly K.source →
      Keeping K (Lowering.expression m)) :
    Keeping K (Lowering.lowerNode Lowering.expression n) := by
  have hpos := n.weight_pos
  have hpart : ∀ m : Node, m.weight ≤ n.weight - 1 → m.CallsOnly K.source →
      Keeping K (Lowering.expression m) := fun m hm => h m (by omega)
  -- An identifier or a call is the only segment of its chain.
  have hsingle (hn : n.unwrap = n) (hv : isValueRoot n = false) :
      Keeping K (Lowering.lowerChain Lowering.expression [n] n.span) := by
    refine lowerChain hpart _ (List.cons_ne_nil _ _) (fun m hm => ?_) fun m hm => ?_
    · rw [List.mem_singleton.mp hm, hn, hv]
      exact ⟨by omega, fun h => by cases h⟩
    · rw [List.mem_singleton.mp hm]
      exact hc
  have hparts {m : Node} (hm : m ∈ n.parts) : m.CallsOnly K.source := hc.part hm
  unfold Lowering.lowerNode
  cases n with
  | identifier => exact hsingle rfl rfl
  | call => exact hsingle rfl rfl
  | member left right op lastFactor span =>
    refine withSegments fun l hl => lowerChain hpart _ (Node.segments_ne_nil hl) (fun m hm => ?_)
      (hc.segments hl)
    have hlt := Node.weight_lt_of_mem_segments hl hm
    have hunwrap := m.weight_unwrap_le
    omega
  | literal => exact plain (Standalone.lowerLiteral _ _ _ _)
  | list =>
    simp only [Node.weight, Nat.add_sub_cancel] at hpart
    exact lowerList hpart (by omega) (by omega) (fun m hm => hparts hm) _
  | range =>
    simp only [Node.weight, Nat.add_sub_cancel] at hpart
    exact lowerRange hpart (by omega) (by omega) (by omega) (fun m hm => hparts hm) _
  | unary =>
    simp only [Node.weight, Nat.add_sub_cancel] at hpart
    exact lowerUnary hpart _ (Nat.le_refl _) (hparts (List.mem_cons_self ..)) _
  | binary left op right =>
    simp only [Node.weight, Nat.add_sub_cancel] at hpart
    exact lowerBinary hpart (by omega) (by omega) (hparts (List.mem_cons_self ..))
      (hparts (List.mem_cons_of_mem left (List.mem_singleton_self right))) _ _
  | group inner =>
    simp only [Node.weight, Nat.add_sub_cancel] at hpart
    exact lowerGroup hpart (Nat.le_refl _) (hparts (List.mem_cons_self ..))
      (fun m hm => hparts (List.mem_cons_of_mem inner hm)) _
  | defaultArg => exact bind (.plain (Standalone.emitPush _ _ _)) fun _ => pure _
  | dynamic => exact bind (.plain (Standalone.emitPush _ _ _)) fun _ => pure _
  | _ => exact silent (.halt rfl _ _)

/-- Every expression whose calls are known keeps the property. -/
theorem Keeping.expression {n : Node} (hc : n.CallsOnly K.source) :
    Keeping K (Lowering.expression n) := by
  induction hw : n.weight using Nat.strongRecOn generalizing n with
  | ind w ih =>
    rw [expression_eq]
    exact lowerNode hc fun m hm hcm => ih m.weight (hw ▸ hm) hcm rfl

theorem Keeping.anyDims {dims : List Node} (hc : ∀ d ∈ dims, d.CallsOnly K.source) :
    Keeping K (Lowering.lowerDims Lowering.expression dims) :=
  lowerDims (fun _ _ hn => expression hn) (Nat.le_refl _) hc

end Diglot.Lowering
