import Diglot.Proofs.Chains.Segments

/-! # Expressions in step

An expression that looks only names up that a source can have is lowered in step
(`InStep.expression`).
-/

set_option autoImplicit false

namespace Diglot

open Lowering

/-- All names that the expression looks up in its scope are such as a source can have. -/
def Node.LooksUpPlain (isRoot : Bool) (n : Node) : Prop := ∀ name ∈ n.roots isRoot, IsPlainName name

namespace Lowering

variable {anchor : Option Nat} {c c' : Cursor} {part : LowerPart} {α β : Type}

namespace InStep

/-! ## Forms without parts -/

theorem chainSegments (node : Node) :
    InStep anchor (fun l l' => l' = l ∧ node.segments = .ok l) (chainSegments node) (chainSegments node) := by
  unfold Lowering.chainSegments
  cases node.segments with
  | ok l => exact pure ⟨rfl, rfl⟩
  | error span => exact halt _ _ _

theorem literalOperand (kind : LiteralKind) (source : String) (span : Span) :
    InStep anchor Eq (literalOperand kind source span) (literalOperand kind source span) := by
  unfold Lowering.literalOperand
  cases readLiteral? kind source with
  | none => exact defect _
  | some r =>
    dsimp only
    cases r.fault with
    | none => exact pure rfl
    | some fault => exact bind (report _ _ _) fun _ _ _ => pure rfl

theorem lowerString (source : String) (span : Span) :
    InStep anchor (fun _ _ => True) (lowerString source span) (lowerString source span) := by
  refine bind (forM fun c _ => bind (silent (.emitPush _ _ _) (.emitPush _ _ _)) fun _ _ _ => pure trivial) ?_
  exact fun _ _ _ => bind (silent (.emitAlloca _ _) (.emitAlloca _ _)) fun _ _ _ => pure trivial

theorem lowerLiteral (kind : LiteralKind) (source : String) (span : Span) (expected : Ty) :
    InStep anchor Eq (lowerLiteral kind source span expected) (lowerLiteral kind source span expected) := by
  refine withSession fun s t hst => bind guidesWanted fun on _ heq => ?_
  subst heq
  have hstring (type : Ty) : InStep anchor Eq (Lowering.lowerString source span >>= fun _ => Pure.pure type)
      (Lowering.lowerString source span >>= fun _ => Pure.pure type) :=
    bind (lowerString _ _) fun _ _ _ => pure rfl
  have hother (type : Ty) : InStep anchor Eq
      (do
        let operand ← Lowering.literalOperand kind source span
        let _ ← emitPush operand 0 span
        return type : Lower Ty)
      (do
        let operand ← Lowering.literalOperand kind source span
        let _ ← emitPush operand 0 span
        return type) :=
    bind (literalOperand _ _ _) fun _ _ _ =>
      bind (silent (.emitPush _ _ _) (.emitPush _ _ _)) fun _ _ _ => pure rfl
  have htype : literalType t.options (literalPrimitive kind) expected =
      literalType s.options (literalPrimitive kind) expected := by
    rw [← hst.options]
    rfl
  rw [htype]
  cases kind with
  | string => exact ite (bind (silent (.emitPushIndex _) (.emitPushIndex _)) fun _ _ _ => hstring _) (hstring _)
  | _ => exact ite (bind (silent (.emitPushIndex _) (.emitPushIndex _)) fun _ _ _ => hother _) (hother _)

/-! ## Forms with parts -/

section
variable (hpart : ∀ n : Node, n.LooksUpPlain true → InStep anchor Eq (part n) (part n))
include hpart

theorem part_forM {l : List Node} (h : ∀ name ∈ Node.allRoots l, IsPlainName name) :
    InStep anchor (fun _ _ => True) (l.forM fun n => do let _ ← part n) (l.forM fun n => do let _ ← part n) :=
  forM fun n hn => bind (hpart n fun name hname => h name (Node.mem_allRoots.mpr ⟨n, hn, hname⟩))
    fun _ _ _ => pure trivial

theorem lowerDims {dims : List Node} (h : ∀ name ∈ Node.allRoots dims, IsPlainName name) :
    InStep anchor (fun _ _ => True) (lowerDims part dims) (lowerDims part dims) :=
  withReader (fun _ => rfl) (fun _ => rfl) (fun _ => rfl) (part_forM hpart h)

theorem lowerValueRoot (hc : c.Similar c') {isRoot : Bool} {n : Node} (hn : n.LooksUpPlain isRoot)
    (issue : Issue) (message : String) (span : Span) :
    InStep anchor (Cursor.Apace c c')
      (if isRoot && isValueRoot n then lowerValueRoot part n c else Lowering.halt issue message span)
      (if isRoot && isValueRoot n then lowerValueRoot part n c' else Lowering.halt issue message span) := by
  cases isRoot with
  | false => exact halt _ _ _
  | true =>
    refine ite (bind (hpart _ hn) fun type _ heq => pure ?_) (halt _ _ _)
    subst heq
    exact ⟨⟨rfl, hc.anchor, by simp, rfl, hc.lateEntry, hc.isStopped⟩, by simp, [], by simp⟩

/-- A segment is lowered in step from cursors that lead to it alike. -/
theorem lowerSegment (hc : c.Similar c') {isRoot : Bool} {n : Node} (hn : n.LooksUpPlain isRoot)
    (hdepth : isRoot = false → c.depth ≠ 0) :
    InStep anchor (Cursor.Apace c c') (lowerSegment part isRoot n c) (lowerSegment part isRoot n c') := by
  cases n with
  | identifier ident =>
    refine lowerIdentifier hc (lowerDims hpart fun name hname => hn name ?_) fun hzero => hn _ ?_
    · rw [Node.roots_identifier]
      exact List.mem_append_right _ hname
    · rw [Node.roots_identifier]
      cases isRoot with
      | true => simp
      | false => exact absurd hzero (hdepth rfl)
  | call call =>
    refine lowerCall hc (part_forM hpart fun name hname => hn name ?_) (lowerDims hpart fun name hname => hn name ?_)
    · rw [Node.roots_call]
      exact List.mem_append_left _ hname
    · rw [Node.roots_call]
      exact List.mem_append_right _ hname
  | _ => exact lowerValueRoot hpart hc hn _ _ _

theorem lowerSegments (hc : c.Similar c') {isRoot : Bool} {l : List Node}
    (hl : ∀ name ∈ Node.chainRoots isRoot l, IsPlainName name) (hdepth : isRoot = false → c.depth ≠ 0) :
    InStep anchor (Cursor.Together c c') (lowerSegments part isRoot l c) (lowerSegments part isRoot l c') := by
  induction l generalizing isRoot c c' with
  | nil => exact pure (.refl hc)
  | cons n rest ih =>
    have hfirst : n.LooksUpPlain isRoot := fun name hname => hl name (by simp [Node.chainRoots, hname])
    unfold Lowering.lowerSegments
    rw [hc.isStopped]
    refine ite (pure (.refl hc)) (bind (lowerSegment hpart hc hfirst hdepth) fun d d' h => ?_)
    refine (ih h.similar (fun name hname => hl name (by simp [Node.chainRoots, hname])) fun _ => h.behind).conseq ?_
    exact fun e e' => h.andThen

theorem lowerChain {l : List Node} (span : Span) (hl : ∀ name ∈ Node.chainRoots true l, IsPlainName name) :
    InStep anchor Eq (lowerChain part l span) (lowerChain part l span) := by
  have hrest : InStep anchor Eq
      (finishChain part (l.map Node.unwrap) ((l.map Node.unwrap).length == 1) span)
      (finishChain part (l.map Node.unwrap) ((l.map Node.unwrap).length == 1) span) := by
    refine bind (lowerSegments hpart (.refl _) (fun name hname => hl name ?_) nofun) fun c c' h => ?_
    · exact Node.mem_chainRoots_unwrap hname
    · have hend : InStep anchor Eq
          (do
            recordRead c.path c.hasCall
            return if c.isStopped then .null else c.type : Lower Ty)
          (do
            recordRead c'.path c'.hasCall
            return if c'.isStopped then .null else c'.type) := by
        rw [h.similar.isStopped, h.similar.type]
        exact bind (silent (.recordRead _ _) (.recordRead _ _)) fun _ _ _ => pure rfl
      exact iteLeft
        (bindLeft (.emitPushlist _ _ _) fun _ => iteRight (bindRight (.emitPushlist _ _ _) fun _ => hend) hend)
        (iteRight (bindRight (.emitPushlist _ _ _) fun _ => hend) hend)
  unfold Lowering.lowerChain
  refine ite (bind (Q := fun _ _ => False) (defect _) nofun) (bind guidesWanted fun on _ heq => ?_)
  subst heq
  exact ite (bind (silent (.emitGuides _) (.emitGuides _)) fun _ _ _ => hrest) hrest

theorem lowerItems {items : List Node} (h : ∀ name ∈ Node.allRoots items, IsPlainName name) (common : Option Ty) :
    InStep anchor Eq (lowerItems part common items) (lowerItems part common items) := by
  induction items generalizing common with
  | nil => exact pure rfl
  | cons item rest ih =>
    have hrest (type : Ty) := ih (fun name hname => h name (by simp [Node.allRoots, hname]))
      (some (commonType common type))
    have hitem : InStep anchor Eq (part item) (part item) :=
      hpart item fun name hname => h name (by simp [Node.allRoots, hname])
    have hthen {m n : Lower Ty} (hm : InStep anchor Eq m n) :
        InStep anchor Eq (m >>= fun type => Lowering.lowerItems part (some (commonType common type)) rest)
          (n >>= fun type => Lowering.lowerItems part (some (commonType common type)) rest) := by
      refine bind hm fun type _ heq => ?_
      subst heq
      exact hrest type
    cases item with
    | literal kind source span => exact hthen (lowerLiteral kind source span _)
    | _ => exact hthen hitem

theorem lowerList {items dims : List Node} (hitems : ∀ name ∈ Node.allRoots items, IsPlainName name)
    (hdims : ∀ name ∈ Node.allRoots dims, IsPlainName name) (guides : List Guide) :
    InStep anchor Eq (lowerList part items dims guides) (lowerList part items dims guides) := by
  refine bind (withReader (fun _ => rfl) (fun _ => rfl) (fun _ => rfl) (lowerItems hpart hitems none))
    fun common _ heq => ?_
  subst heq
  refine bind (silent (.emitAlloca _ _) (.emitAlloca _ _)) fun _ _ _ => bind (lowerDims hpart hdims) fun _ _ _ => ?_
  have hend : InStep anchor Eq
      (do
        if ← Lowering.guidesWanted then emitGuides guides
        return Ty.subscripted ⟨elementUid common, literalRank items⟩ dims.length : Lower Ty)
      (do
        if ← Lowering.guidesWanted then emitGuides guides
        return Ty.subscripted ⟨elementUid common, literalRank items⟩ dims.length) := by
    refine bind guidesWanted fun on _ heq => ?_
    subst heq
    exact ite (bind (silent (.emitGuides _) (.emitGuides _)) fun _ _ _ => pure rfl) (pure rfl)
  exact ite (bind (silent (.emitPushIndex _) (.emitPushIndex _)) fun _ _ _ => hend) hend

theorem lowerRange {first last : Node} {step : Option Node} (hfirst : first.LooksUpPlain true)
    (hlast : last.LooksUpPlain true) (hstep : ∀ name ∈ Node.optRoots step, IsPlainName name) (span : Span) :
    InStep anchor Eq (lowerRange part first last step span) (lowerRange part first last step span) := by
  refine bind (hpart first hfirst) fun _ _ _ => bind (hpart last hlast) fun _ _ _ => ?_
  have hend : InStep anchor Eq (emit (.bare .range) span >>= fun _ => Pure.pure ⟨some Primitive.var.uid, 1⟩ : Lower Ty)
      (emit (.bare .range) span >>= fun _ => Pure.pure ⟨some Primitive.var.uid, 1⟩) :=
    bind (silent (.emit rfl _) (.emit rfl _)) fun _ _ _ => pure rfl
  cases step with
  | none => exact bind (silent (.emitPush _ _ _) (.emitPush _ _ _)) fun _ _ _ => hend
  | some step => exact bind (hpart step hstep) fun _ _ _ => hend

theorem lowerUnary (op : UnaryOperator) {operand : Node} (h : operand.LooksUpPlain true) (span : Span) :
    InStep anchor Eq (lowerUnary part op operand span) (lowerUnary part op operand span) := by
  refine bind (hpart operand h) fun type _ heq => ?_
  subst heq
  refine bind classScope fun _ _ _ => bind (silent (.emitPop _ _ _) (.emitPop _ _ _)) fun _ _ _ => ?_
  refine bind (silent (.emit ?_ _) (.emit ?_ _)) fun _ _ _ => ?_
  · cases op <;> rfl
  · cases op <;> rfl
  · exact bind (silent (.emitPush _ _ _) (.emitPush _ _ _)) fun _ _ _ => pure rfl

theorem lowerBinary {left right : Node} (hleft : left.LooksUpPlain true) (hright : right.LooksUpPlain true)
    (op : Operator) (span : Span) :
    InStep anchor Eq (lowerBinary part left op right span) (lowerBinary part left op right span) := by
  unfold Lowering.lowerBinary
  cases hop : OpCode.ofBinary? op with
  | none => exact halt _ _ _
  | some opcode =>
    have hcallee (a b : Operand) : (Instruction.binary opcode a b).callee? = none := by
      cases op <;> cases hop <;> rfl
    refine bind (hpart left hleft) fun _ _ hl => bind (hpart right hright) fun _ _ hr => ?_
    subst hl hr
    refine bind classScope fun _ _ _ => bind (silent (.emitPop _ _ _) (.emitPop _ _ _)) fun _ _ _ => ?_
    refine bind (silent (.emitPop _ _ _) (.emitPop _ _ _)) fun _ _ _ => ?_
    refine bind (silent (.emit (hcallee _ _) _) (.emit (hcallee _ _) _)) fun _ _ _ => ?_
    exact bind (silent (.emitPush _ _ _) (.emitPush _ _ _)) fun _ _ _ => pure rfl

theorem lowerGroup {inner : Node} {dims : List Node} {guides : List Guide} (hinner : inner.LooksUpPlain true)
    (hdims : ∀ name ∈ Node.allRoots dims, IsPlainName name) :
    InStep anchor Eq (lowerGroup part inner dims guides) (lowerGroup part inner dims guides) := by
  refine ite (hpart _ fun name hname => ?_) (bind (hpart inner hinner) fun type _ heq => ?_)
  · exact (Node.mem_roots_ungroup hname).elim (hinner name) (hdims name)
  · subst heq
    refine bind (lowerDims hpart hdims) fun _ _ _ => ?_
    exact ite (bind (silent (.emitPushIndex _) (.emitPushIndex _)) fun _ _ _ => pure rfl) (pure rfl)

theorem lowerNode {n : Node} (h : n.LooksUpPlain true) : InStep anchor Eq (lowerNode part n) (lowerNode part n) := by
  cases n with
  | identifier ident =>
    exact lowerChain (l := [.identifier ident]) hpart _ fun name hname => h name (by simpa [Node.chainRoots] using hname)
  | call call =>
    exact lowerChain (l := [.call call]) hpart _ fun name hname => h name (by simpa [Node.chainRoots] using hname)
  | member left right op lastFactor span =>
    refine bind (chainSegments _) fun l _ hl => ?_
    obtain ⟨rfl, hsegments⟩ := hl
    exact lowerChain hpart _ fun name hname => h name (by rwa [Node.chainRoots_segments hsegments] at hname)
  | literal kind source span => exact lowerLiteral kind source span _
  | list items dims guides span =>
    exact lowerList hpart (fun name hname => h name (by simp [Node.roots, hname]))
      (fun name hname => h name (by simp [Node.roots, hname])) guides
  | range first last step span =>
    exact lowerRange hpart (fun name hname => h name (by simp [Node.roots, hname]))
      (fun name hname => h name (by simp [Node.roots, hname]))
      (fun name hname => h name (by simp [Node.roots, hname])) span
  | unary op operand span => exact lowerUnary hpart op (fun name hname => h name (by simpa [Node.roots] using hname)) span
  | binary left op right span =>
    exact lowerBinary hpart (fun name hname => h name (by simp [Node.roots, hname]))
      (fun name hname => h name (by simp [Node.roots, hname])) op span
  | group inner dims guides span =>
    exact lowerGroup hpart (fun name hname => h name (by simp [Node.roots, hname]))
      fun name hname => h name (by simp [Node.roots, hname])
  | defaultArg span => exact bind (silent (.emitPush _ _ _) (.emitPush _ _ _)) fun _ _ _ => pure rfl
  | dynamic span => exact bind (silent (.emitPush _ _ _) (.emitPush _ _ _)) fun _ _ _ => pure rfl
  | _ => exact halt _ _ _

end

/-- An expression is lowered in step if all names that it looks up are such as a source can have. -/
theorem expression (n : Node) (h : n.LooksUpPlain true) : InStep anchor Eq (expression n) (expression n) := by
  unfold Lowering.expression
  generalize n.weight = depth
  induction depth generalizing n with
  | zero => exact defect _
  | succ depth ih => exact lowerNode ih h

end InStep

end Lowering

end Diglot
