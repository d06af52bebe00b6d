import Diglot.Proofs.Course.Emission

/-! # Courses of expressions

Expressions and stores have courses of plain instructions. Where a step returns a reference that a
later step follows, the reference is shown to point to something first; where a step works on the
segments of a chain, the chain is shown to have one.
-/

set_option autoImplicit false

namespace Diglot

namespace Lowering

variable {w : Bool} {D : Prop} {P : Instruction → Prop} {α : Type} {f : Frame} {s : State}

theorem Course.defectThen {β : Type} (d : Defect) {k : α → Lower β} (h : ¬ D) :
    Course D P f s ((Lowering.defect d : Lower α) >>= k) :=
  .bind (.defect d h) fun _ _ hrun => by cases hrun

/-! ## Dependencies -/

theorem foldl_open {add : GraphNode → Segment → GraphNode}
    (hadd : ∀ n d, (add n d).isSealed = n.isSealed ∧ (add n d).block = n.block)
    (l : List Segment) (n : GraphNode) :
    (l.foldl add n).isSealed = n.isSealed ∧ (l.foldl add n).block = n.block := by
  induction l generalizing n with
  | nil => exact ⟨rfl, rfl⟩
  | cons d rest ih =>
    obtain ⟨hsealed, hblock⟩ := hadd n d
    obtain ⟨hsealed', hblock'⟩ := ih (add n d)
    exact ⟨hsealed'.trans hsealed, hblock'.trans hblock⟩

theorem mem_onFirst {g : α → α} {l : List α} {a : α} (h : a ∈ onFirst g l) :
    a ∈ l ∨ ∃ b ∈ l, a = g b := by
  cases l with
  | nil => cases h
  | cons b rest =>
    rcases List.mem_cons.mp h with rfl | h
    · exact .inr ⟨b, List.mem_cons_self .., rfl⟩
    · exact .inl (List.mem_cons_of_mem b h)

namespace Composed

theorem recordRead (path : Path) (viaCall : Bool) : Composed w D P (recordRead path viaCall) := by
  intro f s hr
  have hadd : Composed w D P (do
      Lowering.note .trace .graph ("#" ++ toString s.node.uid ++ " depends on " ++ path.text)
      Lowering.modifyNode fun n =>
        let n := n.addDependency path
        if viaCall && n.firstCall.isNone then n.markFirstCall else n) := by
    refine bind (note _ _ _) fun _ => modifyNode fun n => ?_
    dsimp only
    split <;> exact ⟨rfl, rfl⟩
  refine .withFrame ?_
  split
  · refine .withState ?_
    dsimp only
    split
    · next hsealed =>
      refine .defectThen _ fun hD => ?_
      rw [((hr hD).neat s.node (.inl rfl)).1] at hsealed
      cases hsealed
    · exact ite hadd (pure _) f s hr
  · exact .pure _

theorem recordIndexing (literals : List Segment) : Composed w D P (recordIndexing literals) := by
  have hadd : ∀ (n : GraphNode) d, (n.addDim d).isSealed = n.isSealed ∧ (n.addDim d).block = n.block :=
    fun _ _ => ⟨rfl, rfl⟩
  refine bind read fun _ => ite (modifyNode fun n => ?_) (pure _)
  exact foldl_open hadd literals { n with isIndexing := true }

theorem recordSplitDims (literals : List Segment) (written : Bool) :
    Composed w D P (recordSplitDims literals written) := by
  refine bind getSession fun _ => ite (modifyState (fun _ => rfl) fun s hs n hn => ?_) (pure _)
  have hadd : ∀ n d, ((if written then GraphNode.addDim else GraphNode.addDependencyDim) n d).isSealed
        = n.isSealed ∧
      ((if written then GraphNode.addDim else GraphNode.addDependencyDim) n d).block = n.block := by
    intro n d
    split <;> exact ⟨rfl, rfl⟩
  rcases hn with rfl | hn
  · exact hs s.node (.inl rfl)
  · rcases mem_onFirst hn with hn | ⟨m, hm, rfl⟩
    · exact hs n (.inr hn)
    · obtain ⟨hsealed, hblock⟩ := foldl_open hadd literals m
      obtain ⟨hopen, hlt⟩ := hs m (.inr hm)
      exact ⟨hsealed.trans hopen, hblock ▸ hlt⟩

theorem recordSplitChain : Composed w D P recordSplitChain := by
  refine bind sight fun v => bind get fun s => ?_
  refine bind (modifyState (fun _ => rfl) fun _ hs => hs) fun _ => ?_
  split
  · exact pure _
  · exact bind (note _ _ _) fun _ => recordRead _ _

/-! ## Literals and subscripts -/

theorem guidesWanted : Composed w D P guidesWanted :=
  bind read fun _ => bind getSession fun _ => pure _

theorem lowerString (source : String) (span : Span) :
    Composed w D Instruction.IsPlain (lowerString source span) := by
  refine bind (forM fun c _ => ?_) fun _ => ?_
  · exact bind (emitPush rfl _ _) fun _ => pure _
  · exact bind (emitAlloca _ _) fun _ => pure _

end Composed

/-- What a literal is read as is no place in the code, and its faults do not halt. -/
theorem readLiteral?_cases {kind : LiteralKind} (h : kind ≠ .string) (source : String) :
    ∃ r, readLiteral? kind source = some r ∧ r.operand.isLabel = false ∧
      ∀ issue message, r.fault = some (issue, message) → issue.isHalting = false := by
  have hint : (readInt source).operand.isLabel = false ∧
      ∀ issue message, (readInt source).fault = some (issue, message) → issue.isHalting = false := by
    unfold readInt
    split
    · exact ⟨rfl, fun _ _ hf => by cases hf⟩
    · next fault _ =>
      refine ⟨rfl, fun issue message hf => ?_⟩
      cases hf
      cases fault <;> rfl
  have hdouble : (readDouble source).operand.isLabel = false ∧
      ∀ issue message, (readDouble source).fault = some (issue, message) →
        issue.isHalting = false := by
    unfold readDouble
    split
    · exact ⟨rfl, fun _ _ hf => by cases hf⟩
    · exact ⟨rfl, fun _ _ hf => by cases hf; rfl⟩
  have hbool : (readBool source).operand.isLabel = false ∧
      ∀ issue message, (readBool source).fault = some (issue, message) →
        issue.isHalting = false := by
    unfold readBool
    split
    · exact ⟨rfl, fun _ _ hf => by cases hf⟩
    · split
      · exact ⟨rfl, fun _ _ hf => by cases hf⟩
      · exact ⟨rfl, fun _ _ hf => by cases hf; rfl⟩
  have hchar : (readChar source).operand.isLabel = false ∧
      ∀ issue message, (readChar source).fault = some (issue, message) →
        issue.isHalting = false := by
    unfold readChar
    split
    · exact ⟨rfl, fun _ _ hf => by cases hf; rfl⟩
    · exact ⟨rfl, fun _ _ hf => by cases hf⟩
    · exact ⟨rfl, fun _ _ hf => by cases hf; rfl⟩
  cases kind with
  | int => exact ⟨_, rfl, hint⟩
  | double => exact ⟨_, rfl, hdouble⟩
  | bool => exact ⟨_, rfl, hbool⟩
  | char => exact ⟨_, rfl, hchar⟩
  | string => exact absurd rfl h
  | null => exact ⟨_, rfl, rfl, fun _ _ hf => by cases hf⟩

namespace Composed

theorem withLiteral {kind : LiteralKind} (h : kind ≠ .string) (source : String) (span : Span)
    {k : Operand → Lower α} (hk : ∀ o : Operand, o.isLabel = false → Composed w D P (k o)) :
    Composed w D P (literalOperand kind source span >>= k) := by
  obtain ⟨r, hread, hlabel, hfault⟩ := readLiteral?_cases h source
  unfold literalOperand
  rw [hread]
  dsimp only
  split
  · next issue message hf =>
    rw [bind_assoc]
    refine bind (report (hfault issue message hf) _ _) fun _ => ?_
    rw [pure_bind]
    exact hk _ hlabel
  · rw [pure_bind]
    exact hk _ hlabel

theorem lowerLiteral (kind : LiteralKind) (source : String) (span : Span) (expected : Ty) :
    Composed w D Instruction.IsPlain (lowerLiteral kind source span expected) := by
  refine bind getSession fun s => bind guidesWanted fun on => onlyIf (emitPushIndex rfl) ?_
  cases kind with
  | string => exact bind (lowerString _ _) fun _ => pure _
  | _ =>
    refine withLiteral (by decide) _ _ fun o ho => ?_
    exact bind (emitPush ho _ _) fun _ => pure _

theorem unguided {m : Lower α} (h : Composed w D P m) : Composed w D P (unguided m) := by
  refine withReader ?_ h
  exact fun _ => rfl

theorem guidedCall {m : Lower α} (h : Composed w D P m) : Composed w D P (guidedCall m) := by
  refine bind getSession fun s => withReader ?_ h
  exact fun _ => rfl

/-! ## Late-bound names -/

theorem registerLateVariable (name : String) (c : Cursor) :
    Composed w D P (registerLateVariable name c) := by
  have hnew (s : Session) : Composed w D P (openLateVariable name c s) := by
    refine bind read fun f => bind (fun _ _ _ => .record ?_) fun _ => pure _
    exact .lateVariable _
  refine bind getSession fun s => ?_
  cases c.lateEntry with
  | none => exact hnew s
  | some i =>
    refine ite (bind (fun _ _ _ => .record ?_) fun _ => pure _) (hnew s)
    exact .lateMember i name

theorem registerLateFunction (name : String) (arity : Nat) :
    Composed w D P (registerLateFunction name arity) := by
  refine bind getSession fun s => bind read fun f => bind (fun _ _ _ => .record ?_) fun _ => pure _
  exact .lateFunction _

theorem warnUnbound (name : String) (span : Span) : Composed w D P (warnUnbound name span) :=
  bind sight fun _ => report rfl _ _

theorem warnFunctionNotFound (name : String) (arity : Nat) (span : Span) :
    Composed w D P (warnFunctionNotFound name arity span) := bind sight fun _ => report rfl _ _

/-! ## Segments of a chain -/

/-- The segments of a chain are not empty. -/
theorem withSegments {node : Node} {k : List Node → Lower α}
    (hk : ∀ l, node.segments = .ok l → Composed w D P (k l)) :
    Composed w D P (chainSegments node >>= k) := by
  unfold chainSegments
  split
  · next l hl =>
    rw [pure_bind]
    exact hk l hl
  · intro f s hr
    exact .bind (.halt _ _ rfl) fun _ _ hrun => by cases hrun

theorem stopChain (c : Cursor) (span : Span) : Composed w D Instruction.IsPlain (stopChain c span) :=
  bind (emitPush rfl _ _) fun _ => pure _

theorem lowerThis (ident : Identifier) (c : Cursor) :
    Composed w D Instruction.IsPlain (lowerThis ident c) := by
  refine bind classScope fun cls => ite ?_ ?_
  · exact bind (emitPush rfl _ _) fun _ => pure _
  · exact bind (emitPushm rfl _ _) fun _ => pure _

theorem lowerClassName (ident : Identifier) (c : Cursor) (cls : Nat) :
    Composed w D Instruction.IsPlain (lowerClassName ident c cls) := by
  refine ite ?_ ?_
  · exact bind (emitPush rfl _ _) fun _ => pure _
  · exact bind (emitPushm rfl _ _) fun _ => pure _

theorem lowerInaccessible (ident : Identifier) (c : Cursor) :
    Composed w D Instruction.IsPlain (lowerInaccessible ident c) :=
  bind (report rfl _ _) fun _ => bind sight fun _ => stopChain _ _

theorem lowerLateCall (call : Call) (c : Cursor) :
    Composed w D Instruction.IsPlain (lowerLateCall call c) := by
  refine onlyIf (warnFunctionNotFound _ _ _) ?_
  exact bind (registerLateFunction _ _) fun _ => bind (emitLateCall _ _ _) fun _ => pure _

end Composed

/-- A procedure that is there can be called. -/
theorem Course.lowerKnownCall (call : Call) (c : Cursor) {r : ProcRef} (hr : D → Ready w f s)
    (h : D → (s.session.procedure? r).isSome) :
    Course D Instruction.IsPlain f s (lowerKnownCall call c r) := by
  have hemit := Composed.emitCallTo (D := D) (by decide : OpCode.callr.IsPlain) r c.depth call.span
    f s hr
  refine hemit.andThen hr fun _ t hrun ht => .withSession ?_
  split
  · next hnone =>
    refine .defect _ fun hD => ?_
    obtain ⟨p, hp⟩ := Option.isSome_iff_exists.mp (h hD)
    obtain ⟨q, hq, _⟩ := (hemit.grows hr hrun hD).procedures r p hp
    rw [hq] at hnone
    cases hnone
  · split
    · refine .bind (.modify ?_ ?_) fun _ _ _ => .pure _
      · rfl
      · exact fun _ hs => hs
    · exact .pure _

section
variable {k : Nat}
  (hpart : ∀ n : Node, n.weight ≤ k → Composed w D Instruction.IsPlain (expression n))
include hpart

theorem Composed.lowerDims {dims : List Node} (hd : Node.weights dims ≤ k) :
    Composed w D Instruction.IsPlain (lowerDims expression dims) := by
  refine .unguided (.forM fun d hmem => .bind (hpart d ?_) fun _ => .pure _)
  exact Nat.le_trans (Node.weight_le_weights hmem) hd

theorem Course.lowerSymbol {ident : Identifier} (hi : Node.weights ident.dims ≤ k) (c : Cursor)
    {r : SymbolRef} (hr : D → Ready w f s) (h : D → (s.session.symbol? r).isSome) :
    Course D Instruction.IsPlain f s (lowerSymbol expression ident c r) := by
  refine (Course.getSymbol h).andThen hr fun symbol t _ ht => ?_
  have hlabel := Operand.isLabel_ofSymbol symbol
  split
  · refine Composed.bind .sight (fun _ => .bind (.report rfl _ _) fun _ => ?_) f t ht
    exact .stopChain _ _
  · refine Composed.bind (.lowerDims hpart hi) (fun _ => .bind .read fun f => ?_) f t ht
    refine .bind (.recordSplitDims _ _) fun _ => .ite ?_ ?_
    · exact .bind (.emitPush hlabel _ _) fun _ => .pure _
    · exact .onlyIf (.emitPushDims _) (.bind (.emitPushm hlabel _ _) fun _ => .pure _)

namespace Composed

theorem lowerLate {ident : Identifier} (hi : Node.weights ident.dims ≤ k) (c : Cursor) :
    Composed w D Instruction.IsPlain (lowerLate expression ident c) := by
  refine onlyIf (warnUnbound _ _) ?_
  refine bind (registerLateVariable _ _) fun p => bind (lowerDims hpart hi) fun _ => ?_
  refine onlyIf (emitPushDims _) ?_
  exact bind classScope fun _ => bind (emitPushm rfl _ _) fun _ => pure _

theorem lowerIdentifier {ident : Identifier} (hi : Node.weights ident.dims ≤ k) (c : Cursor) :
    Composed w D Instruction.IsPlain (lowerIdentifier expression ident c) := by
  refine ite (lowerThis _ _) (withSight fun f s blocks hr => ?_)
  cases htarget : Sight.segmentTarget ⟨s.session, f, blocks⟩ ident.name c with
  | symbol r =>
    exact .lowerSymbol hpart hi c hr fun _ => Sight.segmentTarget_exists htarget
  | cls id => exact lowerClassName ident c id f s hr
  | inaccessible => exact lowerInaccessible ident c f s hr
  | arrayReceiver => exact stopChain c ident.span f s hr
  | unbound =>
    refine ite ?_ (lowerLate hpart hi c) f s hr
    exact bind (warnUnbound _ _) fun _ => stopChain _ _

end Composed

theorem Course.lowerInvocation {call : Call} (ha : Node.weights call.args ≤ k)
    (hd : Node.weights call.dims ≤ k) (c : Cursor) (target : Option ProcRef) (hr : D → Ready w f s)
    (h : ∀ r, target = some r → D → (s.session.procedure? r).isSome) :
    Course D Instruction.IsPlain f s (lowerInvocation expression call c target) := by
  have hargs : Composed w D Instruction.IsPlain (call.args.forM fun a => do
      let _ ← expression a) := by
    refine .forM fun a hmem => .bind (hpart a ?_) fun _ => .pure _
    exact Nat.le_trans (Node.weight_le_weights hmem) ha
  have hrest (p : Ty × Segment) : Composed w D Instruction.IsPlain (finishInvocation expression call c target p) := by
    refine .bind (.lowerDims hpart hd) fun _ => ?_
    exact .onlyIf (.emitPushIndex rfl) (.bind .read fun _ => .pure _)
  refine (hargs f s hr).andThen hr fun _ t hrun ht => ?_
  cases target with
  | some r =>
    have hcall := Course.lowerKnownCall call c (r := r) ht fun hD => by
      obtain ⟨p, hp⟩ := Option.isSome_iff_exists.mp (h r rfl hD)
      obtain ⟨q, hq, _⟩ := ((hargs f s hr).grows hr hrun hD).procedures r p hp
      rw [hq]
      rfl
    exact hcall.andThen ht fun p u _ hu => hrest p f u hu
  | none =>
    refine (Composed.lowerLateCall call c f t ht).andThen ht fun p u _ hu => ?_
    exact hrest p f u hu

namespace Composed

theorem lowerResolvedCall {call : Call} (ha : Node.weights call.args ≤ k)
    (hd : Node.weights call.dims ≤ k) (c : Cursor) :
    Composed w D Instruction.IsPlain (lowerResolvedCall expression call c) := by
  refine withSight fun f s blocks hr => ?_
  cases htarget : Sight.callTarget ⟨s.session, f, blocks⟩ call.name call.args.length c with
  | procedure r =>
    refine .lowerInvocation hpart ha hd c (some r) hr fun r' hr' hD => ?_
    cases hr'
    exact Sight.callTarget_exists (hr hD).tidy htarget
  | unresolved =>
    refine .lowerInvocation hpart ha hd c none hr fun r' hr' => ?_
    cases hr'
  | nonStatic => exact bind (report rfl _ _) (fun _ => stopChain _ _) f s hr
  | inaccessible => exact bind (report rfl _ _) (fun _ => stopChain _ _) f s hr
  | arrayReceiver => exact stopChain _ _ f s hr

theorem lowerCall {call : Call} (ha : Node.weights call.args ≤ k)
    (hd : Node.weights call.dims ≤ k) (c : Cursor) :
    Composed w D Instruction.IsPlain (lowerCall expression call c) := by
  refine guidedCall (bind sight fun v => ?_)
  split
  · next property _ =>
    let ident : Identifier := ⟨property, call.dims, [], call.span⟩
    have hdims : Node.weights ident.dims ≤ k := hd
    exact lowerIdentifier hpart hdims c
  · exact lowerResolvedCall hpart ha hd c

theorem lowerSegment (isRoot : Bool) {segment : Node} (hs : segment.weight ≤ k + 1)
    (hv : isValueRoot segment = true → segment.weight ≤ k) (c : Cursor) :
    Composed w D Instruction.IsPlain (lowerSegment expression isRoot segment c) := by
  unfold Lowering.lowerSegment
  cases segment with
  | identifier ident =>
    refine lowerIdentifier hpart ?_ c
    cases ident
    simp only [Node.weight, Identifier.weight] at hs
    exact Nat.le_of_succ_le_succ hs
  | call call =>
    cases call
    simp only [Node.weight, Call.weight] at hs
    refine lowerCall hpart ?_ ?_ c <;> dsimp only <;> omega
  | _ =>
    dsimp only
    split
    · next hroot =>
      refine bind (hpart _ (hv ?_)) fun _ => pure _
      exact (Bool.and_eq_true _ _ ▸ hroot).2
    · exact halt rfl _ _

theorem lowerSegments (isRoot : Bool) {segments : List Node}
    (hs : ∀ n ∈ segments, n.weight ≤ k + 1 ∧ (isValueRoot n = true → n.weight ≤ k)) (c : Cursor) :
    Composed w D Instruction.IsPlain (lowerSegments expression isRoot segments c) := by
  induction segments generalizing isRoot c with
  | nil => exact pure _
  | cons n rest ih =>
    obtain ⟨hn, hv⟩ := hs n (List.mem_cons_self ..)
    refine ite (pure _) (bind (lowerSegment hpart isRoot hn hv c) fun c => ?_)
    exact ih false (fun m hm => hs m (List.mem_cons_of_mem n hm)) c

theorem lowerChain {segments : List Node} (span : Span) (hne : segments ≠ [])
    (hs : ∀ n ∈ segments, n.unwrap.weight ≤ k + 1 ∧
      (isValueRoot n.unwrap = true → n.unwrap.weight ≤ k)) :
    Composed w D Instruction.IsPlain (lowerChain expression segments span) := by
  have hparts : ∀ n ∈ segments.map Node.unwrap,
      n.weight ≤ k + 1 ∧ (isValueRoot n = true → n.weight ≤ k) := by
    intro n hn
    obtain ⟨m, hm, rfl⟩ := List.mem_map.mp hn
    exact hs m hm
  unfold Lowering.lowerChain
  rw [if_neg (by simpa using hne)]
  refine bind guidesWanted fun on => onlyIf (emitGuides _) ?_
  refine bind (lowerSegments hpart true hparts _) fun c => ?_
  exact onlyIf (emitPushlist _ _ _) (bind (recordRead _ _) fun _ => pure _)

/-! ## Expressions -/

theorem lowerItems (common : Option Ty) {items : List Node} (hi : Node.weights items ≤ k) :
    Composed w D Instruction.IsPlain (lowerItems expression common items) := by
  induction items generalizing common with
  | nil => exact pure _
  | cons item rest ih =>
    simp only [Node.weights] at hi
    have hrest := fun common => ih common (by omega)
    unfold Lowering.lowerItems
    split
    · exact bind (lowerLiteral _ _ _ _) fun _ => hrest _
    · exact bind (hpart _ (by omega)) fun _ => hrest _

theorem lowerList {items dims : List Node} (hi : Node.weights items ≤ k)
    (hd : Node.weights dims ≤ k) (guides : List Guide) :
    Composed w D Instruction.IsPlain (lowerList expression items dims guides) := by
  refine bind (unguided (lowerItems hpart _ hi)) fun common => bind (emitAlloca _ _) fun _ => ?_
  refine bind (lowerDims hpart hd) fun _ => onlyIf (emitPushIndex rfl) ?_
  exact bind guidesWanted fun on => onlyIf (emitGuides _) (pure _)

theorem lowerRange {first last : Node} {step : Option Node} (hf : first.weight ≤ k)
    (hl : last.weight ≤ k) (hs : Node.optWeight step ≤ k) (span : Span) :
    Composed w D Instruction.IsPlain (lowerRange expression first last step span) := by
  refine bind (hpart _ hf) fun _ => bind (hpart _ hl) fun _ => ?_
  have hrange : Composed w D Instruction.IsPlain (do
      let _ ← Lowering.emit (.bare .range) span
      return (⟨some Primitive.var.uid, 1⟩ : Ty)) :=
    bind (emit (fun _ => Instruction.isPlain_bare (by decide : OpCode.range.IsPlain)) span)
      fun _ => pure _
  cases step with
  | some step => exact bind (hpart step hs) fun _ => hrange
  | none => exact bind (emitPush rfl _ _) fun _ => hrange

theorem lowerUnary (op : UnaryOperator) {operand : Node} (ho : operand.weight ≤ k) (span : Span) :
    Composed w D Instruction.IsPlain (lowerUnary expression op operand span) := by
  refine bind (hpart _ ho) fun _ => bind classScope fun cls => bind (emitPop rfl _ _) fun _ => ?_
  refine bind (emit (fun _ => Instruction.isPlain_unary (OpCode.isPlain_ofUnary op) rfl) span)
    fun _ => ?_
  exact bind (emitPush rfl _ _) fun _ => pure _

theorem lowerBinary {left right : Node} (hl : left.weight ≤ k) (hr : right.weight ≤ k)
    (op : Operator) (span : Span) :
    Composed w D Instruction.IsPlain (lowerBinary expression left op right span) := by
  unfold Lowering.lowerBinary
  split
  · exact halt rfl _ _
  · next opcode hop =>
    have hplain := OpCode.isPlain_ofBinary hop
    refine bind (hpart _ hl) fun _ => bind (hpart _ hr) fun _ => bind classScope fun cls => ?_
    refine bind (emitPop rfl _ _) fun _ => bind (emitPop rfl _ _) fun _ => ?_
    refine bind (emit (fun _ => Instruction.isPlain_binary hplain rfl rfl) span) fun _ => ?_
    exact bind (emitPush rfl _ _) fun _ => pure _

theorem lowerGroup {inner : Node} {dims : List Node} (hi : inner.weight + Node.weights dims ≤ k)
    (guides : List Guide) :
    Composed w D Instruction.IsPlain (lowerGroup expression inner dims guides) := by
  have hmoved := hpart _ (Nat.le_trans (Node.weight_ungroup_le inner dims guides) hi)
  refine ite hmoved (bind (hpart _ (by omega)) fun type => ?_)
  refine bind (lowerDims hpart (by omega)) fun _ => ?_
  exact onlyIf (emitPushIndex rfl) (pure _)

end Composed

end

theorem Composed.lowerNode {n : Node}
    (h : ∀ m : Node, m.weight < n.weight → Composed w D Instruction.IsPlain (Lowering.expression m)) :
    Composed w D Instruction.IsPlain (Lowering.lowerNode Lowering.expression n) := by
  have hpos := n.weight_pos
  have hpart : ∀ m : Node, m.weight ≤ n.weight - 1 →
      Composed w D Instruction.IsPlain (Lowering.expression m) := fun m hm => h m (by omega)
  -- An identifier or a call is the only segment of its chain.
  have hsingle (hn : n.unwrap = n) (hv : isValueRoot n = false) :
      Composed w D Instruction.IsPlain (Lowering.lowerChain Lowering.expression [n] n.span) := by
    refine lowerChain hpart _ (List.cons_ne_nil _ _) fun m hm => ?_
    rw [List.mem_singleton.mp hm, hn, hv]
    exact ⟨by omega, fun h => by cases h⟩
  unfold Lowering.lowerNode
  cases n with
  | identifier => exact hsingle rfl rfl
  | call => exact hsingle rfl rfl
  | member left right op lastFactor span =>
    refine withSegments fun l hl => lowerChain hpart _ (Node.segments_ne_nil hl) fun m hm => ?_
    have hlt := Node.weight_lt_of_mem_segments hl hm
    have hunwrap := m.weight_unwrap_le
    omega
  | literal => exact lowerLiteral _ _ _ _
  | list =>
    simp only [Node.weight, Nat.add_sub_cancel] at hpart
    exact lowerList hpart (by omega) (by omega) _
  | range =>
    simp only [Node.weight, Nat.add_sub_cancel] at hpart
    exact lowerRange hpart (by omega) (by omega) (by omega) _
  | unary =>
    simp only [Node.weight, Nat.add_sub_cancel] at hpart
    exact lowerUnary hpart _ (Nat.le_refl _) _
  | binary =>
    simp only [Node.weight, Nat.add_sub_cancel] at hpart
    exact lowerBinary hpart (by omega) (by omega) _ _
  | group =>
    simp only [Node.weight, Nat.add_sub_cancel] at hpart
    exact lowerGroup hpart (Nat.le_refl _) _
  | defaultArg => exact bind (emitPush rfl _ _) fun _ => pure _
  | dynamic => exact bind (emitPush rfl _ _) fun _ => pure _
  | _ => exact halt rfl _ _

theorem Composed.expression (n : Node) : Composed w D Instruction.IsPlain (Lowering.expression n) := by
  induction hw : n.weight using Nat.strongRecOn generalizing n with
  | ind w ih =>
    rw [expression_eq]
    exact lowerNode fun m hm => ih m.weight (hw ▸ hm) m rfl

theorem Composed.anyDims (dims : List Node) :
    Composed w D Instruction.IsPlain (Lowering.lowerDims Lowering.expression dims) :=
  lowerDims (fun n _ => expression n) (Nat.le_refl _)

end Lowering

end Diglot
