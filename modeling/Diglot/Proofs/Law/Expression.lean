import Diglot.Proofs.Law.Basic

/-! # Expressions keep a law

Most of what an expression emits is neutral. A symbol is read where a name was found to stand for it,
and a procedure is called where the call was found to reach it; subscripts and arguments are lowered in
between, while the session widens.
-/

set_option autoImplicit false

namespace Diglot

namespace Lowering

theorem readLiteral?_isNeutral {kind : LiteralKind} {source : String} {r : Reading}
    (h : readLiteral? kind source = some r) : r.operand.isNeutral = true := by
  cases kind with
  | int =>
    cases h
    unfold readInt
    split <;> rfl
  | double =>
    cases h
    unfold readDouble
    split <;> rfl
  | bool =>
    cases h
    unfold readBool
    split
    · rfl
    · split <;> rfl
  | char =>
    cases h
    unfold readChar
    split <;> rfl
  | null =>
    cases h
    rfl
  | string => cases h

variable {w : Bool} {D : Prop}

/-! ## Neutral steps -/

namespace Neutral

open Instruction

theorem emitPush {operand : Operand} (h : operand.isNeutral = true) (dims : Nat) (span : Span) :
    Composed w D IsNeutral (emitPush operand dims span) :=
  .withClass fun _ => .emit (fun _ => isNeutral_ternary .push h rfl rfl) span

theorem emitPushm {operand : Operand} (h : operand.isNeutral = true) (cls : Option Nat)
    (span : Span) : Composed w D IsNeutral (emitPushm operand cls span) :=
  .withBlock fun _ => .emit (fun _ => isNeutral_ternary .pushm h rfl rfl) span

theorem emitPushlist (depth : Nat) (afterCall : Bool) (span : Span) :
    Composed w D IsNeutral (emitPushlist depth afterCall span) := by
  refine .withClass fun _ => .withBlock fun _ => ?_
  refine .emitSilent (fun _ => isNeutral_ternary .pushlist ?_ rfl rfl) span
  split <;> rfl

theorem emitPushIndex {operand : Operand} (h : operand.isNeutral = true) :
    Composed w D IsNeutral (emitPushIndex operand) :=
  .emitSilent (fun _ => isNeutral_unary .pushindex h) .nil

theorem emitPushDims (dims : Nat) : Composed w D IsNeutral (emitPushDims dims) :=
  .withClass fun _ => .emitSilent (fun _ => isNeutral_binary .push rfl rfl) .nil

theorem emitPushVarData (block dims : Nat) (type : Ty) :
    Composed w D IsNeutral (emitPushVarData block dims type) := by
  refine .withClass fun _ => ?_
  refine .bind (.emitSilent (fun _ => isNeutral_binary .push rfl rfl) .nil) fun _ => ?_
  refine .bind (.emitSilent (fun _ => isNeutral_binary .push rfl rfl) .nil) fun _ => ?_
  exact .withClass fun _ => .emitSilent (fun _ => isNeutral_binary .push rfl rfl) .nil

theorem emitPop {operand : Operand} (h : operand.isNeutral = true) (cls : Option Nat)
    (span : Span) : Composed w D IsNeutral (emitPop operand cls span) :=
  .emit (fun _ => isNeutral_binary .pop h rfl) span

theorem emitPoplist (depth : Nat) (start : Option Nat) (span : Span) :
    Composed w D IsNeutral (emitPoplist depth start span) :=
  .withBlock fun _ => .emit (fun _ => isNeutral_ternary .poplist rfl rfl rfl) span

theorem emitAlloca (count : Nat) (isString : Bool) :
    Composed w D IsNeutral (emitAlloca count isString) := by
  refine .emitSilent (fun _ => isNeutral_binary .alloca rfl ?_) .nil
  split <;> rfl

theorem emitHeapBox (symbol : Symbol) : Composed w D IsNeutral (emitHeapBox symbol) := by
  unfold Lowering.emitHeapBox
  split
  · exact .pure _
  · refine .bind (.emitSilent (fun _ => isNeutral_binary .mov rfl rfl) .nil) fun _ => ?_
    exact .bind (.emitSilent (fun _ => isNeutral_unary .alloc rfl) .nil) fun _ => .pure _

theorem emitGuides (guides : List Guide) : Composed w D IsNeutral (emitGuides guides) := by
  refine .bind (.forM fun g _ => ?_) fun _ => ?_
  · exact .bind (emitPush rfl _ _) fun _ => .pure _
  · exact .bind (emitPushIndex rfl) fun _ => .pure _

theorem emitLateCall (index depth : Nat) (span : Span) :
    Composed w D IsNeutral (emitLateCall index depth span) :=
  .withClass fun _ => .emit (fun _ => isNeutral_ternary .callr rfl rfl rfl) span

theorem withLiteral {α : Type} {kind : LiteralKind} (h : kind ≠ .string) (source : String)
    (span : Span) {k : Operand → Lower α}
    (hk : ∀ o : Operand, o.isNeutral = true → Composed w D IsNeutral (k o)) :
    Composed w D IsNeutral (literalOperand kind source span >>= k) := by
  obtain ⟨r, hread, _, hfault⟩ := readLiteral?_cases h source
  have hneutral := readLiteral?_isNeutral hread
  unfold literalOperand
  rw [hread]
  dsimp only
  split
  · next issue message hf =>
    rw [bind_assoc]
    refine .bind (.report (hfault issue message hf) _ _) fun _ => ?_
    rw [pure_bind]
    exact hk _ hneutral
  · rw [pure_bind]
    exact hk _ hneutral

theorem lowerString (source : String) (span : Span) :
    Composed w D IsNeutral (lowerString source span) := by
  refine .bind (.forM fun c _ => ?_) fun _ => ?_
  · exact .bind (emitPush rfl _ _) fun _ => .pure _
  · exact .bind (emitAlloca _ _) fun _ => .pure _

theorem emitBounce (block entry : Nat) (span : Span) :
    Composed w D IsNeutral (emitBounce block entry span) :=
  .emit (fun _ => isNeutral_binary .bounce rfl rfl) span

theorem lowerLiteral (kind : LiteralKind) (source : String) (span : Span) (expected : Ty) :
    Composed w D IsNeutral (lowerLiteral kind source span expected) := by
  refine .bind .getSession fun s => .bind .guidesWanted fun on => .onlyIf (emitPushIndex rfl) ?_
  cases kind with
  | string => exact .bind (lowerString _ _) fun _ => .pure _
  | _ =>
    refine withLiteral (by decide) _ _ fun o ho => ?_
    exact .bind (emitPush ho _ _) fun _ => .pure _

theorem stopChain (c : Cursor) (span : Span) : Composed w D IsNeutral (stopChain c span) :=
  .bind (emitPush rfl _ _) fun _ => .pure _

theorem lowerThis (ident : Identifier) (c : Cursor) : Composed w D IsNeutral (lowerThis ident c) := by
  refine .bind .classScope fun cls => .ite ?_ ?_
  · exact .bind (emitPush rfl _ _) fun _ => .pure _
  · exact .bind (emitPushm rfl _ _) fun _ => .pure _

theorem lowerClassName (ident : Identifier) (c : Cursor) (cls : Nat) :
    Composed w D IsNeutral (lowerClassName ident c cls) := by
  refine .ite ?_ ?_
  · exact .bind (emitPush rfl _ _) fun _ => .pure _
  · exact .bind (emitPushm rfl _ _) fun _ => .pure _

theorem lowerInaccessible (ident : Identifier) (c : Cursor) :
    Composed w D IsNeutral (lowerInaccessible ident c) :=
  .bind (.report rfl _ _) fun _ => .bind .sight fun _ => stopChain _ _

theorem lowerLateCall (call : Call) (c : Cursor) :
    Composed w D IsNeutral (lowerLateCall call c) := by
  refine .onlyIf (.warnFunctionNotFound _ _ _) ?_
  exact .bind (.registerLateFunction _ _) fun _ => .bind (emitLateCall _ _ _) fun _ => .pure _

end Neutral

/-! ## Instructions that access a symbol -/

theorem Accessing.emitPush (x : Symbol) (dims : Nat) (span : Span) :
    Composed w D (·.Accesses x) (emitPush (.ofSymbol x) dims span) :=
  .withClass fun cls => .emit (fun debug => .alone cls dims ⟨debug, rfl⟩) span

theorem Accessing.emitPushm (x : Symbol) (span : Span) :
    Composed w D (·.Accesses x) (emitPushm (.ofSymbol x) x.classScope span) :=
  .withBlock fun id => .emit (fun debug => .segment id ⟨debug, rfl⟩) span

/-! ## Segments of a chain -/

variable {L : Law} {o : Stage} {f : Frame} {s : State}

/-- The call of a procedure that was found is allowed when its arguments have been lowered. -/
theorem Heeds.lowerKnownCall (call : Call) (c : Cursor) {r : ProcRef} (h : Poised o f s)
    (hallowed : ∀ j : Instruction, j.Calls r .callr c.depth →
      L.allows f.scope.classScope s.session j) : Heeds L o f s (lowerKnownCall call c r) := by
  have hemit : Composed o.isWatching True (·.Calls r .callr c.depth)
      (emitCallTo .callr r c.depth call.span) := .emit (fun debug => ⟨debug, rfl⟩) _
  refine .bind (.writes h hemit hallowed) fun _ t _ ht _ => .withSession ?_
  cases t.session.procedure? r with
  | none => exact .stops (e := .defect (.missingProcedure r)) rfl
  | some p =>
    refine .silent ht (.ite (.bind (.modifyState ?_ ?_) fun _ => .pure _) (.pure _))
    · exact fun _ => rfl
    · exact fun _ hs => hs

/-- The segments of a chain are not empty. -/
theorem Heeding.withSegments {α : Type} {node : Node} {k : List Node → Lower α}
    (hk : ∀ l, node.segments = .ok l → Heeding L o (k l)) :
    Heeding L o (chainSegments node >>= k) := by
  unfold chainSegments
  split
  · next l hl =>
    rw [pure_bind]
    exact hk l hl
  · refine fun f s h => .bind (.silent h.ready (.halt rfl _ _)) fun _ _ hrun => ?_
    cases hrun

theorem Heeding.unguided {α : Type} {m : Lower α} (h : Heeding L o m) : Heeding L o (unguided m) := by
  refine .withReader ?_ h
  exact fun _ => rfl

theorem Heeding.guidedCall {α : Type} {m : Lower α} (h : Heeding L o m) :
    Heeding L o (guidedCall m) := by
  refine .bind (.silent .getSession) fun s => .withReader ?_ h
  exact fun _ => rfl

section
variable {k : Nat} (hpart : ∀ n : Node, n.weight ≤ k → Heeding L o (expression n))
include hpart

theorem Heeding.lowerDims {dims : List Node} (hd : Node.weights dims ≤ k) :
    Heeding L o (lowerDims expression dims) := by
  refine .unguided (.forM fun d hmem => .bind (hpart d ?_) fun _ => .pure _)
  exact Nat.le_trans (Node.weight_le_weights hmem) hd

theorem Heeds.lowerSymbol {ident : Identifier} (hi : Node.weights ident.dims ≤ k) (c : Cursor)
    {r : SymbolRef} (h : Poised o f s)
    (hallowed : ∀ x, s.session.symbol? r = some x → ∀ j : Instruction, j.Accesses x →
      L.allows f.scope.classScope s.session j) :
    Heeds L o f s (lowerSymbol expression ident c r) := by
  refine .withSymbol fun x hx => ?_
  split
  · refine .bind (.silent h.ready .sight) fun v t _ ht _ => ?_
    refine .bind (.silent ht (.report rfl _ _)) fun _ u _ hu _ => ?_
    exact Heeding.neutral (Neutral.stopChain c ident.span) f u (h.next hu)
  · refine .bind (Heeding.lowerDims hpart hi f s h) fun _ t _ ht hst => .withFrame ?_
    refine .bind (.silent ht (.recordSplitDims _ _)) fun _ u _ hu htu => ?_
    have hallowed (j : Instruction) (hj : j.Accesses x) : L.allows f.scope.classScope u.session j :=
      L.widens (hst.trans htu) (hallowed x hx j hj)
    have hreads {m : Lower Nat} (hm : Composed o.isWatching True (·.Accesses x) m)
        {v : State} (hv : Primed o.isWatching f v) (huv : u.session.Widens v.session) (d : Cursor) :
        Heeds L o f v (do let _ ← m; return d) :=
      .bind (.accesses (h.next hv) hm fun j hj => L.widens huv (hallowed j hj))
        fun _ _ _ hz _ => .pure hz _
    -- A symbol that stands alone is read with its subscripts; in a chain these go before it.
    split
    · exact hreads (Accessing.emitPush x _ _) hu (.refl _) _
    · split
      · refine .bind (Heeding.neutral (Neutral.emitPushDims _) f u (h.next hu)) fun _ v _ hv huv => ?_
        exact hreads (Accessing.emitPushm x _) hv huv _
      · exact hreads (Accessing.emitPushm x _) hu (.refl _) _

theorem Heeding.lowerLate {ident : Identifier} (hi : Node.weights ident.dims ≤ k) (c : Cursor) :
    Heeding L o (lowerLate expression ident c) := by
  refine .onlyIf (.silent (.warnUnbound _ _)) ?_
  refine .bind (.silent (.registerLateVariable _ _)) fun p => ?_
  refine .bind (.lowerDims hpart hi) fun _ => .onlyIf (.neutral (Neutral.emitPushDims _)) ?_
  refine .bind (.silent .classScope) fun _ => ?_
  exact .bind (.neutral (Neutral.emitPushm rfl _ _)) fun _ => .pure _

/-- A symbol is read where the name was found to stand for it. -/
theorem Heeding.lowerIdentifier {ident : Identifier} (hi : Node.weights ident.dims ≤ k) (c : Cursor) :
    Heeding L o (lowerIdentifier expression ident c) := by
  refine .ite (.neutral (Neutral.lowerThis _ _)) fun f s h => .withSight fun blocks => ?_
  cases htarget : Sight.segmentTarget ⟨s.session, f, blocks⟩ ident.name c with
  | symbol r =>
    refine .lowerSymbol hpart hi c h fun x hx j hj => ?_
    exact L.access h.ready h.own (.ofTarget htarget) hx hj
  | cls id => exact Heeding.neutral (Neutral.lowerClassName ident c id) f s h
  | inaccessible => exact Heeding.neutral (Neutral.lowerInaccessible ident c) f s h
  | arrayReceiver => exact Heeding.neutral (Neutral.stopChain c ident.span) f s h
  | unbound =>
    refine Heeding.ite ?_ (lowerLate hpart hi c) f s h
    exact .bind (.silent (.warnUnbound _ _)) fun _ => .neutral (Neutral.stopChain _ _)

/-- A call leaves its target allowed while its arguments are lowered. -/
theorem Heeds.lowerInvocation {call : Call} (ha : Node.weights call.args ≤ k)
    (hd : Node.weights call.dims ≤ k) (c : Cursor) (target : Option ProcRef) (h : Poised o f s)
    (hallowed : ∀ r, target = some r → ∀ j : Instruction, j.Calls r .callr c.depth →
      L.allows f.scope.classScope s.session j) :
    Heeds L o f s (lowerInvocation expression call c target) := by
  have hargs : Heeding L o (call.args.forM fun a => do
      let _ ← expression a) := by
    refine .forM fun a hmem => .bind (hpart a ?_) fun _ => .pure _
    exact Nat.le_trans (Node.weight_le_weights hmem) ha
  have hrest (p : Ty × Segment) : Heeding L o (finishInvocation expression call c target p) := by
    refine .bind (.lowerDims hpart hd) fun _ => .onlyIf (.neutral (Neutral.emitPushIndex rfl)) ?_
    exact .bind (.silent .read) fun _ => .pure _
  refine .bind (hargs f s h) fun _ t _ ht hst => ?_
  cases target with
  | some r =>
    have hcall : Heeds L o f t (Lowering.lowerKnownCall call c r) :=
      .lowerKnownCall call c (h.next ht) fun j hj => L.widens hst (hallowed r rfl j hj)
    exact .bind hcall fun p u _ hu _ => hrest p f u (h.next hu)
  | none =>
    refine .bind (Heeding.neutral (Neutral.lowerLateCall call c) f t (h.next ht)) ?_
    exact fun p u _ hu _ => hrest p f u (h.next hu)

namespace Heeding

theorem lowerResolvedCall {call : Call} (ha : Node.weights call.args ≤ k)
    (hd : Node.weights call.dims ≤ k) (c : Cursor) :
    Heeding L o (lowerResolvedCall expression call c) := by
  refine fun f s h => .withSight fun blocks => ?_
  have hstops (issue : Issue) (hissue : issue.isHalting = false) (message : String) :
      Heeds L o f s (do
        report issue message call.span
        stopChain c call.span) :=
    bind (.silent (.report hissue _ _)) (fun _ => .neutral (Neutral.stopChain _ _)) f s h
  cases htarget : Sight.callTarget ⟨s.session, f, blocks⟩ call.name call.args.length c with
  | procedure r =>
    refine .lowerInvocation hpart ha hd c (some r) h fun r' hr' j hj => ?_
    cases hr'
    exact L.call h.ready h.own (.call _ _ c htarget) hj
  | unresolved => exact .lowerInvocation hpart ha hd c none h fun r' hr' => by cases hr'
  | nonStatic => exact hstops _ rfl _
  | inaccessible => exact hstops _ rfl _
  | arrayReceiver => exact neutral (Neutral.stopChain _ _) f s h

theorem lowerCall {call : Call} (ha : Node.weights call.args ≤ k)
    (hd : Node.weights call.dims ≤ k) (c : Cursor) : Heeding L o (lowerCall expression call c) := by
  refine guidedCall (bind (.silent .sight) fun v => ?_)
  split
  · next property _ =>
    let ident : Identifier := ⟨property, call.dims, [], call.span⟩
    have hdims : Node.weights ident.dims ≤ k := hd
    exact lowerIdentifier hpart hdims c
  · exact lowerResolvedCall hpart ha hd c

theorem lowerSegment (isRoot : Bool) {segment : Node} (hs : segment.weight ≤ k + 1)
    (hv : isValueRoot segment = true → segment.weight ≤ k) (c : Cursor) :
    Heeding L o (lowerSegment expression isRoot segment c) := by
  unfold Lowering.lowerSegment
  cases segment with
  | identifier ident =>
    refine lowerIdentifier hpart ?_ c
    cases ident
    simp only [Node.weight, Identifier.weight] at hs
    exact Nat.le_of_succ_le_succ hs
  | call call =>
    cases call
    simp only [Node.weight, Call.weight] at hs
    refine lowerCall hpart ?_ ?_ c <;> dsimp only <;> omega
  | _ =>
    dsimp only
    split
    · next hroot =>
      refine bind (hpart _ (hv ?_)) fun _ => pure _
      exact (Bool.and_eq_true _ _ ▸ hroot).2
    · exact silent (.halt rfl _ _)

theorem lowerSegments (isRoot : Bool) {segments : List Node}
    (hs : ∀ n ∈ segments, n.weight ≤ k + 1 ∧ (isValueRoot n = true → n.weight ≤ k)) (c : Cursor) :
    Heeding L o (lowerSegments expression isRoot segments c) := by
  induction segments generalizing isRoot c with
  | nil => exact pure _
  | cons n rest ih =>
    obtain ⟨hn, hv⟩ := hs n (List.mem_cons_self ..)
    refine ite (pure _) (bind (lowerSegment hpart isRoot hn hv c) fun c => ?_)
    exact ih false (fun m hm => hs m (List.mem_cons_of_mem n hm)) c

theorem lowerChain {segments : List Node} (span : Span) (hne : segments ≠ [])
    (hs : ∀ n ∈ segments, n.unwrap.weight ≤ k + 1 ∧
      (isValueRoot n.unwrap = true → n.unwrap.weight ≤ k)) :
    Heeding L o (lowerChain expression segments span) := by
  have hparts : ∀ n ∈ segments.map Node.unwrap,
      n.weight ≤ k + 1 ∧ (isValueRoot n = true → n.weight ≤ k) := by
    intro n hn
    obtain ⟨m, hm, rfl⟩ := List.mem_map.mp hn
    exact hs m hm
  unfold Lowering.lowerChain
  rw [if_neg (by simpa using hne)]
  refine bind (.silent .guidesWanted) fun on => onlyIf (.neutral (Neutral.emitGuides _)) ?_
  refine bind (lowerSegments hpart true hparts _) fun c => ?_
  refine onlyIf (.neutral (Neutral.emitPushlist _ _ _)) ?_
  exact bind (.silent (.recordRead _ _)) fun _ => pure _

/-! ## Expressions -/

theorem lowerItems (common : Option Ty) {items : List Node} (hi : Node.weights items ≤ k) :
    Heeding L o (lowerItems expression common items) := by
  induction items generalizing common with
  | nil => exact pure _
  | cons item rest ih =>
    simp only [Node.weights] at hi
    have hrest := fun common => ih common (by omega)
    unfold Lowering.lowerItems
    split
    · exact bind (.neutral (Neutral.lowerLiteral _ _ _ _)) fun _ => hrest _
    · exact bind (hpart _ (by omega)) fun _ => hrest _

theorem lowerList {items dims : List Node} (hi : Node.weights items ≤ k)
    (hd : Node.weights dims ≤ k) (guides : List Guide) :
    Heeding L o (lowerList expression items dims guides) := by
  refine bind (unguided (lowerItems hpart _ hi)) fun common => ?_
  refine bind (.neutral (Neutral.emitAlloca _ _)) fun _ => ?_
  refine bind (lowerDims hpart hd) fun _ => onlyIf (.neutral (Neutral.emitPushIndex rfl)) ?_
  refine bind (.silent .guidesWanted) fun on => ?_
  exact onlyIf (.neutral (Neutral.emitGuides _)) (pure _)

theorem lowerRange {first last : Node} {step : Option Node} (hf : first.weight ≤ k)
    (hl : last.weight ≤ k) (hs : Node.optWeight step ≤ k) (span : Span) :
    Heeding L o (lowerRange expression first last step span) := by
  refine bind (hpart _ hf) fun _ => bind (hpart _ hl) fun _ => ?_
  have hrange : Heeding L o (do
      let _ ← emit (.bare .range) span
      return (⟨some Primitive.var.uid, 1⟩ : Ty)) := by
    refine bind (.neutral (.emit (fun _ => ?_) span)) fun _ => pure _
    exact Instruction.isNeutral_bare .range
  cases step with
  | some step => exact bind (hpart step hs) fun _ => hrange
  | none => exact bind (.neutral (Neutral.emitPush rfl _ _)) fun _ => hrange

theorem lowerUnary (op : UnaryOperator) {operand : Node} (ho : operand.weight ≤ k) (span : Span) :
    Heeding L o (lowerUnary expression op operand span) := by
  refine bind (hpart _ ho) fun _ => bind (.silent .classScope) fun cls => ?_
  refine bind (.neutral (Neutral.emitPop rfl _ _)) fun _ => ?_
  refine bind (.neutral (.emit (fun _ => ?_) span)) fun _ => ?_
  · exact Instruction.isNeutral_unary (.ofUnary op) rfl
  · exact bind (.neutral (Neutral.emitPush rfl _ _)) fun _ => pure _

theorem lowerBinary {left right : Node} (hl : left.weight ≤ k) (hr : right.weight ≤ k)
    (op : Operator) (span : Span) : Heeding L o (lowerBinary expression left op right span) := by
  unfold Lowering.lowerBinary
  split
  · exact silent (.halt rfl _ _)
  · next opcode hop =>
    refine bind (hpart _ hl) fun _ => bind (hpart _ hr) fun _ => bind (.silent .classScope) fun cls => ?_
    refine bind (.neutral (Neutral.emitPop rfl _ _)) fun _ => ?_
    refine bind (.neutral (Neutral.emitPop rfl _ _)) fun _ => ?_
    refine bind (.neutral (.emit (fun _ => ?_) span)) fun _ => ?_
    · exact Instruction.isNeutral_binary opcode rfl rfl
    · exact bind (.neutral (Neutral.emitPush rfl _ _)) fun _ => pure _

theorem lowerGroup {inner : Node} {dims : List Node} (hi : inner.weight + Node.weights dims ≤ k)
    (guides : List Guide) : Heeding L o (lowerGroup expression inner dims guides) := by
  have hmoved := hpart _ (Nat.le_trans (Node.weight_ungroup_le inner dims guides) hi)
  refine ite hmoved (bind (hpart _ (by omega)) fun type => ?_)
  refine bind (lowerDims hpart (by omega)) fun _ => ?_
  exact onlyIf (.neutral (Neutral.emitPushIndex rfl)) (pure _)

end Heeding

end

theorem Heeding.lowerNode {n : Node}
    (h : ∀ m : Node, m.weight < n.weight → Heeding L o (Lowering.expression m)) :
    Heeding L o (Lowering.lowerNode Lowering.expression n) := by
  have hpos := n.weight_pos
  have hpart : ∀ m : Node, m.weight ≤ n.weight - 1 → Heeding L o (Lowering.expression m) :=
    fun m hm => h m (by omega)
  -- An identifier or a call is the only segment of its chain.
  have hsingle (hn : n.unwrap = n) (hv : isValueRoot n = false) :
      Heeding L o (Lowering.lowerChain Lowering.expression [n] n.span) := by
    refine lowerChain hpart _ (List.cons_ne_nil _ _) fun m hm => ?_
    rw [List.mem_singleton.mp hm, hn, hv]
    exact ⟨by omega, fun h => by cases h⟩
  unfold Lowering.lowerNode
  cases n with
  | identifier => exact hsingle rfl rfl
  | call => exact hsingle rfl rfl
  | member left right op lastFactor span =>
    refine withSegments fun l hl => lowerChain hpart _ (Node.segments_ne_nil hl) fun m hm => ?_
    have hlt := Node.weight_lt_of_mem_segments hl hm
    have hunwrap := m.weight_unwrap_le
    omega
  | literal => exact neutral (Neutral.lowerLiteral _ _ _ _)
  | list =>
    simp only [Node.weight, Nat.add_sub_cancel] at hpart
    exact lowerList hpart (by omega) (by omega) _
  | range =>
    simp only [Node.weight, Nat.add_sub_cancel] at hpart
    exact lowerRange hpart (by omega) (by omega) (by omega) _
  | unary =>
    simp only [Node.weight, Nat.add_sub_cancel] at hpart
    exact lowerUnary hpart _ (Nat.le_refl _) _
  | binary =>
    simp only [Node.weight, Nat.add_sub_cancel] at hpart
    exact lowerBinary hpart (by omega) (by omega) _ _
  | group =>
    simp only [Node.weight, Nat.add_sub_cancel] at hpart
    exact lowerGroup hpart (Nat.le_refl _) _
  | defaultArg => exact bind (.neutral (Neutral.emitPush rfl _ _)) fun _ => pure _
  | dynamic => exact bind (.neutral (Neutral.emitPush rfl _ _)) fun _ => pure _
  | _ => exact silent (.halt rfl _ _)

theorem Heeding.expression (n : Node) : Heeding L o (Lowering.expression n) := by
  induction hw : n.weight using Nat.strongRecOn generalizing n with
  | ind w ih =>
    rw [expression_eq]
    exact lowerNode fun m hm => ih m.weight (hw ▸ hm) m rfl

theorem Heeding.anyDims (dims : List Node) :
    Heeding L o (Lowering.lowerDims Lowering.expression dims) :=
  lowerDims (fun n _ => expression n) (Nat.le_refl _)

end Lowering

end Diglot
