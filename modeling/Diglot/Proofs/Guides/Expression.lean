import Diglot.Proofs.Chains.Walk
import Diglot.Proofs.Guides.Lockstep
import Diglot.Proofs.Origins.Mentions

/-! # Expressions without guides

A tree without guides (`Node.Unguided`) is lowered alike whether guides are asked for or not, but for the counts of
guides that stand in front of chains and literals and behind lists (`Lockstep.expression`). Where they are not asked
for, any tree will do (`Node.Suits`).
-/

set_option autoImplicit false

namespace Diglot

open Lowering

/-! ## Trees without guides -/

namespace Node

theorem weights_toList (part : Option Node) : weights part.toList = optWeight part := by
  cases part with
  | none => rfl
  | some n => rfl

theorem weights_values_le (members : List Variable) :
    weights (members.filterMap Variable.value) ≤ Variable.weights members := by
  induction members with
  | nil => exact Nat.le_refl _
  | cons v rest ih =>
    obtain ⟨_, _, value, _, _, _, _⟩ := v
    rw [List.filterMap_cons, Variable.weights]
    cases value with
    | none =>
      dsimp only
      omega
    | some n =>
      simp only [weights, Variable.weight, optWeight]
      omega

theorem weights_bodies_le (methods : List Function) :
    weights (methods.flatMap Function.body) ≤ Function.weights methods := by
  induction methods with
  | nil => exact Nat.le_refl _
  | cons fn rest ih =>
    rw [List.flatMap_cons, weights_append, Function.weights]
    cases fn
    simp only [Function.weight]
    omega

/-- A tree is heavier than its parts. -/
theorem weights_parts_lt (n : Node) : weights n.parts < n.weight := by
  cases n with
  | identifier ident =>
    cases ident
    simp only [parts, weight, Identifier.weight]
    omega
  | call c =>
    cases c
    simp only [parts, weight, Call.weight, weights_append]
    omega
  | function fn =>
    cases fn
    simp only [parts, weight, Function.weight]
    omega
  | varDecl v =>
    cases v
    simp only [parts, weight, Variable.weight, weights_toList]
    omega
  | classDecl c =>
    have hvalues := weights_values_le c.members
    have hbodies := weights_bodies_le c.methods
    cases c
    simp only [parts, weight, ClassDecl.weight, weights_append] at hvalues hbodies ⊢
    omega
  | _ =>
    simp only [parts, weight, weights, weights_append, weights_toList]
    omega
/-- If guides are asked for, none are written behind any node of the tree. Those of parameters and attributes do not
count, which are not lowered. -/
inductive Suits (asks : Bool) : Node → Prop where
  | of {n : Node} : (asks = true → n.guides = []) → (∀ m ∈ n.parts, Suits asks m) → Suits asks n

/-- No guides are written behind any node of the tree. -/
abbrev Unguided (n : Node) : Prop := n.Suits true

namespace Suits

variable {asks : Bool} {n inner left right target value : Node} {dims : List Node} {guides : List Guide}

theorem own (h : n.Suits asks) : asks = true → n.guides = [] := by
  cases h with
  | of hown hparts => exact hown

theorem part (h : n.Suits asks) {m : Node} (hm : m ∈ n.parts) : m.Suits asks := by
  cases h with
  | of hown hparts => exact hparts m hm

theorem plain (name : String) (span : Span) : (Node.identifier (.plain name span)).Suits asks := .of (fun _ => rfl) nofun

theorem join {op : Operator} {lastFactor : Bool} {span : Span} (hl : left.Suits asks) (hr : right.Suits asks) :
    (Node.member left right op lastFactor span).Suits asks := by
  refine .of (fun _ => rfl) fun m hm => ?_
  rcases List.mem_cons.mp hm with rfl | hm
  · exact hl
  · rw [List.mem_singleton.mp hm]
    exact hr

theorem assign {span : Span} (ht : target.Suits asks) (hv : value.Suits asks) :
    (Node.assign target value span).Suits asks := by
  refine .of (fun _ => rfl) fun m hm => ?_
  rcases List.mem_cons.mp hm with rfl | hm
  · exact ht
  · rw [List.mem_singleton.mp hm]
    exact hv

theorem ungroup (hi : inner.Suits asks) (hguides : asks = true → guides = []) (hd : ∀ d ∈ dims, d.Suits asks) :
    (inner.ungroup dims guides).Suits asks := by
  unfold Node.ungroup
  split
  · exact hi
  cases inner with
  | identifier ident => exact .of hguides hd
  | call c =>
    refine .of hguides fun m hm => ?_
    rcases List.mem_append.mp hm with hm | hm
    · exact hi.part (List.mem_append_left _ hm)
    · exact hd m hm
  | list items =>
    refine .of hguides fun m hm => ?_
    rcases List.mem_append.mp hm with hm | hm
    · exact hi.part (List.mem_append_left _ hm)
    · exact hd m hm
  | group e =>
    refine .of hguides fun m hm => ?_
    rcases List.mem_cons.mp hm with rfl | hm
    · exact hi.part (List.mem_cons_self ..)
    · exact hd m hm
  | _ => exact hi

theorem unwrap (h : n.Suits asks) : n.unwrap.Suits asks := by
  fun_induction Node.unwrap n with
  | case1 inner dims guides span hinner ih =>
    refine ungroup (ih (h.part (List.mem_cons_self ..))) h.own fun d hd => ?_
    exact h.part (List.mem_cons_of_mem inner hd)
  | case2 | case3 => exact h

theorem segments (h : n.Suits asks) {l : List Node} (hl : n.segments = .ok l) : ∀ m ∈ l, m.Suits asks := by
  fun_induction Node.segments n generalizing l with
  | case1 | case2 | case4 => cases hl
  | case3 left right lastFactor span ls hls rs hrs ihl ihr =>
    cases hl
    intro m hm
    rcases List.mem_append.mp hm with hm | hm
    · exact ihl (h.part (List.mem_cons_self ..)) hls m hm
    · exact ihr (h.part (List.mem_cons_of_mem left (List.mem_singleton_self right))) hrs m hm
  | case5 n hn =>
    cases hl
    intro m hm
    rw [List.mem_singleton.mp hm]
    exact h

end Suits

/-- Where guides are not asked for, any tree will do. -/
theorem suits_false (n : Node) : n.Suits false := by
  induction hk : n.weight using Nat.strongRecOn generalizing n with
  | ind k ih =>
    subst hk
    exact .of nofun fun m hm => ih m.weight (Nat.lt_of_le_of_lt (weight_le_weights hm) n.weights_parts_lt) m rfl

end Node

/-! ## Looking names up in both sessions -/

namespace Session.Fewer

variable {s t : Session} (h : s.Fewer t) (f : Frame)
include h

theorem resolve (name : String) : (sightFrom f.unguided t).resolve name = (sightFrom f s).resolve name :=
  Sight.resolve_sightFrom h.sameNames f name

theorem inClass (cls : Nat) (name : String) :
    (sightFrom f.unguided t).inClass cls name = (sightFrom f s).inClass cls name :=
  Sight.inClass_sightFrom h.sameNames f cls name

theorem segmentTarget (name : String) (c : Cursor) :
    (sightFrom f.unguided t).segmentTarget name c = (sightFrom f s).segmentTarget name c :=
  Sight.segmentTarget_sightFrom h.sameNames f name c

theorem callTarget (name : String) (arity : Nat) (c : Cursor) :
    (sightFrom f.unguided t).callTarget name arity c = (sightFrom f s).callTarget name arity c :=
  Sight.callTarget_sightFrom h.sameNames f name arity c

theorem accessedProperty? (call : Diglot.Call) (c : Cursor) :
    Lowering.accessedProperty? (sightFrom f.unguided t) call c = Lowering.accessedProperty? (sightFrom f s) call c :=
  Sight.accessedProperty?_sightFrom h.sameNames f call c

theorem hiddenMember? (name : String) (c : Cursor) :
    (sightFrom f.unguided t).hiddenMember? name c = (sightFrom f s).hiddenMember? name c :=
  Sight.hiddenMember?_sightFrom h.sameNames f name c

theorem dependency? (node : Node) :
    (sightFrom f.unguided t).dependency? node = (sightFrom f s).dependency? node := by
  have hwalk (c : Cursor) (segments : List Node) :
      (sightFrom f.unguided t).walk c segments = (sightFrom f t).walk c segments := by
    induction segments generalizing c with
    | nil => rfl
    | cons segment rest ih =>
      have hsegment : (sightFrom f.unguided t).walkSegment c segment.unwrap =
          (sightFrom f t).walkSegment c segment.unwrap := rfl
      unfold Sight.walk
      simp only [hsegment, ih]
  have hdependency : (sightFrom f.unguided t).dependency? node = (sightFrom f t).dependency? node := by
    unfold Sight.dependency?
    simp only [hwalk]
  exact hdependency.trans (Sight.dependency?_sightFrom h.sameNames f node)

theorem className (cls : Nat) : (sightFrom f.unguided t).className cls = (sightFrom f s).className cls := by
  have hclasses : (sightFrom f.unguided t).session.classes = (sightFrom f s).session.classes := h.classes
  unfold Sight.className
  rw [hclasses]

theorem visibleNames : (sightFrom f.unguided t).visibleNames = (sightFrom f s).visibleNames := by
  have hclasses : (sightFrom f.unguided t).session.classes = (sightFrom f s).session.classes := h.classes
  have hblocks : (sightFrom f.unguided t).blocks = (sightFrom f s).blocks := Sight.sightFrom_blocks h.sameNames f
  have hsymbols (id : Nat) : (sightFrom f.unguided t).symbolsOf id = (sightFrom f s).symbolsOf id :=
    Sight.symbolsOf_congr h.sameNames f.unguided _ id
  unfold Sight.visibleNames
  simp only [hclasses, hblocks, hsymbols]
  rfl

theorem visibleProcedures : (sightFrom f.unguided t).visibleProcedures = (sightFrom f s).visibleProcedures := by
  have hclasses : (sightFrom f.unguided t).session.classes = (sightFrom f s).session.classes := h.classes
  have hprocedures : (sightFrom f.unguided t).session.procedures = (sightFrom f s).session.procedures := h.procedures
  unfold Sight.visibleProcedures
  rw [hclasses, hprocedures]
  rfl

theorem nonStaticMessage (name : String) (anchor : Option Nat) :
    Lowering.nonStaticMessage (sightFrom f.unguided t) name anchor =
      Lowering.nonStaticMessage (sightFrom f s) name anchor := by
  have hclasses : (sightFrom f.unguided t).session.classes = (sightFrom f s).session.classes := h.classes
  unfold Lowering.nonStaticMessage
  simp only [hclasses, h.className f]

end Session.Fewer

/-! ## What is recorded beside the code -/

theorem GraphNode.placeless_foldl {g : GraphNode → Segment → GraphNode}
    (hg : ∀ n d, (g n d).placeless = g n.placeless d) (dims : List Segment) (n : GraphNode) :
    (dims.foldl g n).placeless = dims.foldl g n.placeless := by
  induction dims generalizing n with
  | nil => rfl
  | cons d rest ih =>
    rw [List.foldl_cons, List.foldl_cons, ih, hg]

namespace Lowering.Lockstep

variable {α : Type} {x : Ground} {f : Frame}

theorem recordRead (path : Path) (viaCall : Bool) :
    Lockstep x f Eq (recordRead path viaCall) (recordRead path viaCall) := by
  refine withFrame (ite (withState fun s t hst => ?_) (pure rfl))
  have hsealed : t.node.isSealed = s.node.isSealed := (congrArg GraphNode.isSealed hst.node :)
  have huid : t.node.uid = s.node.uid := (congrArg GraphNode.uid hst.node :)
  have hlacks : t.node.lacks path = s.node.lacks path := (congrArg (fun n : GraphNode => n.lacks path) hst.node :)
  dsimp only
  rw [hsealed, huid, hlacks]
  refine onlyIf (R := Eq) (defect _) (ite (after (note _ _ _ _) (modifyNode fun n => ?_)) (pure rfl))
  have hfirst : (n.placeless.addDependency path).firstCall = (n.addDependency path).firstCall := rfl
  simp only [hfirst]
  split <;> rfl

theorem recordIndexing (literals : List Segment) :
    Lockstep x f Eq (recordIndexing literals) (recordIndexing literals) := by
  refine withFrame (ite (modifyNode fun n => ?_) (pure rfl))
  exact GraphNode.placeless_foldl (fun _ _ => rfl) literals _

theorem recordSplitDims (literals : List Segment) (written : Bool) :
    Lockstep x f Eq (recordSplitDims literals written) (recordSplitDims literals written) := by
  have hadd (n : GraphNode) (d : Segment) :
      ((if written then GraphNode.addDim else GraphNode.addDependencyDim) n d).placeless =
        (if written then GraphNode.addDim else GraphNode.addDependencyDim) n.placeless d := by
    cases written <;> rfl
  have hheld (held : List GraphNode) :
      (onFirst (literals.foldl (if written then GraphNode.addDim else GraphNode.addDependencyDim)) held).map
          GraphNode.placeless =
        onFirst (literals.foldl (if written then GraphNode.addDim else GraphNode.addDependencyDim))
          (held.map GraphNode.placeless) := by
    cases held with
    | nil => rfl
    | cons n rest => exact congrArg (· :: _) (GraphNode.placeless_foldl hadd literals n)
  refine withSession fun s t _ hst => ?_
  rw [hst.options]
  refine ite (modifyState (fun u v huv => ⟨huv.session, huv.node, ?_, huv.pointers, huv.lastCallee⟩) fun _ => rfl)
    (pure rfl)
  exact (hheld v.held).trans ((congrArg _ huv.held).trans (hheld u.held).symm)

theorem recordSplitChain : Lockstep x f Eq recordSplitChain recordSplitChain := by
  refine withSight fun s t hst => withState fun u v huv => ?_
  have hdependency : (sightFrom f.unguided t).dependency? = (sightFrom f s).dependency? := funext (hst.dependency? f)
  rw [huv.pointers, hdependency]
  refine after (modifyState (fun a b hab => ⟨hab.session, hab.node, hab.held, rfl, hab.lastCallee⟩) fun _ => rfl) ?_
  split
  · exact pure rfl
  · exact after (note _ _ _ _) (recordRead _ _)

/-! ## Literals -/

theorem literalOperand (kind : LiteralKind) (source : String) (span : Span) :
    Lockstep x f Eq (literalOperand kind source span) (literalOperand kind source span) := by
  unfold Lowering.literalOperand
  split
  · exact defect _
  · split
    · exact after (report _ _ _) (pure rfl)
    · exact pure rfl

theorem lowerString (hb : x.Bears f) (source : String) (span : Span) :
    Lockstep x f Eq (lowerString source span) (lowerString source span) := by
  refine after (R := Eq) (forM fun c _ => after (emitPush hb _ _ _) (pure rfl)) ?_
  exact after (emitAlloca hb _ _) (pure rfl)

theorem lowerLiteral (hb : x.Bears f) (kind : LiteralKind) (source : String) (span : Span) (expected : Ty) :
    Lockstep x f Eq (lowerLiteral kind source span expected) (lowerLiteral kind source span expected) := by
  have hstring (type : Ty) := after (lowerString (x := x) hb source span) (pure (a := type) rfl)
  have hother (type : Ty) := bind (literalOperand (x := x) (f := f) kind source span) fun operand =>
    after (emitPush hb operand 0 span) (pure (a := type) rfl)
  refine withSession fun s t _ hst => ?_
  have htype : literalType t.options (literalPrimitive kind) expected =
      literalType s.options (literalPrimitive kind) expected := by
    rw [hst.options]
    rfl
  dsimp only
  rw [htype]
  cases kind with
  | string => exact withGuides (fun hguided _ => counts hb hguided (hstring _) 0) (hstring _)
  | _ => exact withGuides (fun hguided _ => counts hb hguided (hother _) 0) (hother _)

/-! ## Names that are looked up at run time -/

theorem registerLateVariable (name : String) (c : Cursor) :
    Lockstep x f Eq (registerLateVariable name c) (registerLateVariable name c) := by
  refine withSession fun s t _ hst => ?_
  have hnew : Lockstep x f Eq (openLateVariable name c s) (openLateVariable name c s) :=
    withFrame (after (annotate (fun _ => ⟨rfl, rfl, rfl, rfl⟩) fun _ => ⟨rfl, rfl⟩) (pure rfl))
  rw [hst.lateVariables]
  cases c.lateEntry with
  | none => exact hnew
  | some i =>
    refine ite (after (annotate (g := fun s => { s with lateVariables := s.lateVariables.modify i fun e =>
      { e with members := e.members ++ [name] } }) (fun _ => ⟨rfl, rfl, rfl, rfl⟩)
      fun _ => ⟨rfl, rfl⟩) (pure rfl)) hnew

theorem registerLateFunction (name : String) (arity : Nat) :
    Lockstep x f Eq (registerLateFunction name arity) (registerLateFunction name arity) := by
  refine withSession fun s t _ hst => ?_
  rw [hst.lateFunctions]
  exact withFrame (after (annotate (fun _ => ⟨rfl, rfl, rfl, rfl⟩) fun _ => ⟨rfl, rfl⟩) (pure rfl))

theorem warnUnbound (name : String) (span : Span) :
    Lockstep x f Eq (warnUnbound name span) (warnUnbound name span) := by
  refine withSight fun s t hst => ?_
  dsimp only
  rw [hst.visibleNames]
  exact report _ _ _

theorem warnFunctionNotFound (name : String) (arity : Nat) (span : Span) :
    Lockstep x f Eq (warnFunctionNotFound name arity span) (warnFunctionNotFound name arity span) := by
  refine withSight fun s t hst => ?_
  dsimp only
  rw [hst.visibleProcedures]
  exact report _ _ _

/-! ## Segments -/

theorem stopChain (hb : x.Bears f) (c : Cursor) (span : Span) :
    Lockstep x f Eq (stopChain c span) (stopChain c span) := after (emitPush hb _ _ _) (pure rfl)

theorem lowerThis (hb : x.Bears f) (ident : Identifier) (c : Cursor) :
    Lockstep x f Eq (lowerThis ident c) (lowerThis ident c) := by
  refine bind classScope fun cls => ?_
  exact ite (after (emitPush hb _ _ _) (pure rfl)) (after (emitPushm hb _ _ _) (pure rfl))

theorem lowerClassName (hb : x.Bears f) (ident : Identifier) (c : Cursor) (cls : Nat) :
    Lockstep x f Eq (lowerClassName ident c cls) (lowerClassName ident c cls) :=
  ite (after (emitPush hb _ _ _) (pure rfl)) (after (emitPushm hb _ _ _) (pure rfl))

theorem lowerInaccessible (hb : x.Bears f) (ident : Identifier) (c : Cursor) :
    Lockstep x f Eq (lowerInaccessible ident c) (lowerInaccessible ident c) := by
  refine after (report _ _ _) (withSight fun s t hst => ?_)
  dsimp only
  rw [hst.hiddenMember?]
  exact stopChain hb _ _

theorem lowerKnownCall (hb : x.Bears f) (call : Call) (c : Cursor) (r : ProcRef) :
    Lockstep x f Eq (lowerKnownCall call c r) (lowerKnownCall call c r) := by
  refine after (emitCallTo hb _ _ _ _) (withSession fun s t _ hst => ?_)
  rw [hst.sameNames.procedure?_eq]
  split
  · exact defect _
  · refine onlyIf (R := Eq) (modifyState (fun u v huv => ?_) fun _ => rfl) (pure rfl)
    exact ⟨huv.session, huv.node, huv.held, huv.pointers, rfl⟩

theorem lowerLateCall (hb : x.Bears f) (call : Call) (c : Cursor) :
    Lockstep x f Eq (lowerLateCall call c) (lowerLateCall call c) := by
  refine onlyIf (warnFunctionNotFound _ _ _) (bind (registerLateFunction _ _) fun i => ?_)
  exact after (emitLateCall hb _ _ _) (pure rfl)

section
variable {part : LowerPart} (hpart : ∀ g n, x.Bears g → n.Suits x.asks → Lockstep x g Eq (part n) (part n))
include hpart

theorem lowerDims (hb : x.Bears f) {dims : List Node} (hdims : ∀ d ∈ dims, d.Suits x.asks) :
    Lockstep x f Eq (lowerDims part dims) (lowerDims part dims) := by
  refine withReader rfl (forM fun d hd => ?_)
  exact after (hpart _ d hb.unguided (hdims d hd)) (pure rfl)

theorem lowerSymbol (hb : x.Bears f) (ident : Identifier) (hdims : ∀ d ∈ ident.dims, d.Suits x.asks) (c : Cursor)
    (r : SymbolRef) : Lockstep x f Eq (lowerSymbol part ident c r) (lowerSymbol part ident c r) := by
  refine bind (getSymbol r) fun symbol => ?_
  split
  · refine withSight fun s t hst => ?_
    rw [hst.className]
    exact after (report _ _ _) (stopChain hb _ _)
  · refine after (lowerDims hpart hb hdims) (withFrame (after (recordSplitDims _ _) (ite ?_ ?_)))
    · exact after (emitPush hb _ _ _) (pure rfl)
    · exact onlyIf (emitPushDims hb _) (after (emitPushm hb _ _ _) (pure rfl))

theorem lowerLate (hb : x.Bears f) (ident : Identifier) (hdims : ∀ d ∈ ident.dims, d.Suits x.asks) (c : Cursor) :
    Lockstep x f Eq (lowerLate part ident c) (lowerLate part ident c) := by
  refine onlyIf (warnUnbound _ _) (bind (registerLateVariable _ _) fun p => ?_)
  refine after (lowerDims hpart hb hdims) (onlyIf (emitPushDims hb _) ?_)
  exact bind classScope fun cls => after (emitPushm hb _ _ _) (pure rfl)

theorem lowerIdentifier (hb : x.Bears f) (ident : Identifier) (hdims : ∀ d ∈ ident.dims, d.Suits x.asks) (c : Cursor) :
    Lockstep x f Eq (lowerIdentifier part ident c) (lowerIdentifier part ident c) := by
  refine ite (lowerThis hb _ _) (withSight fun s t hst => ?_)
  rw [hst.segmentTarget]
  split
  · exact lowerSymbol hpart hb ident hdims c _
  · exact lowerClassName hb _ _ _
  · exact lowerInaccessible hb _ _
  · exact stopChain hb _ _
  · exact ite (after (warnUnbound _ _) (stopChain hb _ _)) (lowerLate hpart hb ident hdims c)

theorem lowerInvocation (hb : x.Bears f) {call : Call} (hcall : (Node.call call).Suits x.asks) (c : Cursor)
    (target : Option ProcRef) :
    Lockstep x f Eq (lowerInvocation part call c target) (lowerInvocation part call c target) := by
  have hdims : ∀ d ∈ call.dims, d.Suits x.asks := fun d hd => hcall.part (List.mem_append_right _ hd)
  refine after (R := Eq) (forM fun a ha => ?_) ?_
  · exact after (hpart f a hb (hcall.part (List.mem_append_left _ ha))) (pure rfl)
  cases target with
  | some r =>
    refine bind (lowerKnownCall hb call c r) fun p => after (lowerDims hpart hb hdims) ?_
    exact onlyIf (emitPushIndex hb _) (withFrame (pure rfl))
  | none =>
    refine bind (lowerLateCall hb call c) fun p => after (lowerDims hpart hb hdims) ?_
    exact onlyIf (emitPushIndex hb _) (withFrame (pure rfl))

theorem lowerResolvedCall (hb : x.Bears f) {call : Call} (hcall : (Node.call call).Suits x.asks) (c : Cursor) :
    Lockstep x f Eq (lowerResolvedCall part call c) (lowerResolvedCall part call c) := by
  refine withSight fun s t hst => ?_
  rw [hst.callTarget, hst.nonStaticMessage]
  split
  · exact lowerInvocation hpart hb hcall c _
  · exact lowerInvocation hpart hb hcall c _
  · exact after (report _ _ _) (stopChain hb _ _)
  · exact after (report _ _ _) (stopChain hb _ _)
  · exact stopChain hb _ _

theorem lowerCall (hb : x.Bears f) {call : Call} (hcall : (Node.call call).Suits x.asks) (c : Cursor) :
    Lockstep x f Eq (lowerCall part call c) (lowerCall part call c) := by
  refine guidedCall hb fun g hg => withSight fun s t hst => ?_
  rw [hst.accessedProperty?]
  split
  · exact lowerIdentifier hpart hg _ (fun d hd => hcall.part (List.mem_append_right _ hd)) c
  · exact lowerResolvedCall hpart hg hcall c

theorem lowerSegment (hb : x.Bears f) (isRoot : Bool) {n : Node} (hn : n.Suits x.asks) (c : Cursor) :
    Lockstep x f Eq (lowerSegment part isRoot n c) (lowerSegment part isRoot n c) := by
  have hother (other : Node) (hother : other.Suits x.asks) : Lockstep x f Eq
      (if isRoot && isValueRoot other then lowerValueRoot part other c
        else Lowering.halt .nonIdentifierSegment "A member access segment must be an identifier or a call." other.span)
      (if isRoot && isValueRoot other then lowerValueRoot part other c
        else Lowering.halt .nonIdentifierSegment "A member access segment must be an identifier or a call."
          other.span) := by
    exact ite (bind (hpart f other hb hother) fun _ => pure rfl) (halt _ _ _)
  cases n with
  | identifier ident => exact lowerIdentifier hpart hb ident (fun d hd => hn.part hd) c
  | call call => exact lowerCall hpart hb hn c
  | _ => exact hother _ hn

theorem lowerSegments (hb : x.Bears f) (isRoot : Bool) {l : List Node} (hl : ∀ n ∈ l, n.Suits x.asks) (c : Cursor) :
    Lockstep x f Eq (lowerSegments part isRoot l c) (lowerSegments part isRoot l c) := by
  induction l generalizing isRoot c with
  | nil => exact pure rfl
  | cons n rest ih =>
    refine ite (pure rfl) (bind (lowerSegment hpart hb isRoot (hl n (List.mem_cons_self ..)) c) fun d => ?_)
    exact ih false (fun m hm => hl m (List.mem_cons_of_mem n hm)) d

theorem lowerChain (hb : x.Bears f) {l : List Node} (hl : ∀ n ∈ l, n.Suits x.asks) (span : Span) :
    Lockstep x f Eq (lowerChain part l span) (lowerChain part l span) := by
  have hunwrapped : ∀ n ∈ l.map Node.unwrap, n.Suits x.asks := by
    intro n hn
    obtain ⟨m, hm, rfl⟩ := List.mem_map.mp hn
    exact (hl m hm).unwrap
  have hguides (hasks : x.asks = true) : ((l.map Node.unwrap).getLast?.map Node.guides).getD [] = [] := by
    cases hlast : (l.map Node.unwrap).getLast? with
    | none => rfl
    | some n => exact (hunwrapped n (List.mem_of_getLast? hlast)).own hasks
  refine onlyIf (R := Eq) (defect _) (emptyGuides hb ?_ hguides)
  refine bind (lowerSegments hpart hb true hunwrapped _) fun c => ?_
  exact onlyIf (emitPushlist hb _ _ _) (after (recordRead _ _) (pure rfl))

/-! ## Other expressions -/

theorem lowerItems (hb : x.Bears f) (common : Option Ty) {items : List Node} (hitems : ∀ n ∈ items, n.Suits x.asks) :
    Lockstep x f Eq (lowerItems part common items) (lowerItems part common items) := by
  induction items generalizing common with
  | nil => exact pure rfl
  | cons item rest ih =>
    have hrest (common : Option Ty) := ih common fun n hn => hitems n (List.mem_cons_of_mem item hn)
    have hitem := hpart f item hb (hitems item (List.mem_cons_self ..))
    unfold Lowering.lowerItems
    cases item with
    | literal => exact bind (lowerLiteral hb _ _ _ _) fun _ => hrest _
    | _ => exact bind hitem fun _ => hrest _

theorem lowerList (hb : x.Bears f) {items dims : List Node} {guides : List Guide} {span : Span}
    (h : (Node.list items dims guides span).Suits x.asks) :
    Lockstep x f Eq (lowerList part items dims guides) (lowerList part items dims guides) := by
  refine bind (withReader rfl (lowerItems hpart hb.unguided none fun n hn => ?_)) fun common => ?_
  · exact h.part (List.mem_append_left _ hn)
  refine after (emitAlloca hb _ _) (after (lowerDims hpart hb fun d hd => ?_) ?_)
  · exact h.part (List.mem_append_right _ hd)
  · exact onlyIf (emitPushIndex hb _) (emptyGuides hb (pure rfl) h.own)

theorem lowerRange (hb : x.Bears f) {first last : Node} {step : Option Node} {span : Span}
    (h : (Node.range first last step span).Suits x.asks) :
    Lockstep x f Eq (lowerRange part first last step span) (lowerRange part first last step span) := by
  have hrange : Lockstep x f Eq
      (Lowering.emit (.bare .range) span >>= fun _ => Pure.pure (⟨some Primitive.var.uid, 1⟩ : Ty))
      (Lowering.emit (.bare .range) span >>= fun _ => Pure.pure (⟨some Primitive.var.uid, 1⟩ : Ty)) :=
    after (emit hb rfl _) (pure rfl)
  refine after (hpart f first hb (h.part (.head _))) (after (hpart f last hb (h.part (.tail _ (.head _)))) ?_)
  cases step with
  | some step => exact after (hpart f step hb (h.part (.tail _ (.tail _ (.head _))))) hrange
  | none => exact after (emitPush hb _ _ _) hrange

theorem lowerUnary (hb : x.Bears f) (op : UnaryOperator) {operand : Node} (h : operand.Suits x.asks) (span : Span) :
    Lockstep x f Eq (lowerUnary part op operand span) (lowerUnary part op operand span) := by
  have hop : (Instruction.unary (.ofUnary op) (.register .ax)).isGuideCount = false := by cases op <;> rfl
  refine bind (hpart f operand hb h) fun type => bind classScope fun cls => ?_
  exact after (emitPop hb _ _ _) (after (emit hb hop _) (after (emitPush hb _ _ _) (pure rfl)))

theorem lowerBinary (hb : x.Bears f) {left right : Node} (hl : left.Suits x.asks) (hr : right.Suits x.asks) (op : Operator)
    (span : Span) : Lockstep x f Eq (lowerBinary part left op right span) (lowerBinary part left op right span) := by
  unfold Lowering.lowerBinary
  split
  · exact halt _ _ _
  · next opcode _ =>
    have hop : (Instruction.binary opcode (.register .ax) (.register .bx)).isGuideCount = false := by
      cases opcode <;> rfl
    refine bind (hpart f left hb hl) fun _ => bind (hpart f right hb hr) fun _ => bind classScope fun cls => ?_
    refine after (emitPop hb _ _ _) (after (emitPop hb _ _ _) (after (emit hb hop _) ?_))
    exact after (emitPush hb _ _ _) (pure rfl)

theorem lowerGroup (hb : x.Bears f) {inner : Node} {dims : List Node} {guides : List Guide} {span : Span}
    (h : (Node.group inner dims guides span).Suits x.asks) :
    Lockstep x f Eq (lowerGroup part inner dims guides) (lowerGroup part inner dims guides) := by
  have hinner : inner.Suits x.asks := h.part (List.mem_cons_self ..)
  have hdims : ∀ d ∈ dims, d.Suits x.asks := fun d hd => h.part (List.mem_cons_of_mem inner hd)
  refine ite (hpart f _ hb (hinner.ungroup h.own hdims)) (bind (hpart f inner hb hinner) fun type => ?_)
  exact after (lowerDims hpart hb hdims) (onlyIf (emitPushIndex hb _) (pure rfl))

omit hpart in
/-- The segments of a chain without guides have none either. -/
theorem chainSegments {n : Node} (hn : n.Suits x.asks) {R : α → α → Prop} {k l : List Node → Lower α}
    (h : ∀ segments, (∀ m ∈ segments, m.Suits x.asks) → Lockstep x f R (k segments) (l segments)) :
    Lockstep x f R (chainSegments n >>= k) (chainSegments n >>= l) := by
  unfold Lowering.chainSegments
  cases hsegments : n.segments with
  | ok segments => exact h segments (hn.segments hsegments)
  | error span => exact andThen (R := fun _ _ => False) (halt _ _ _) fun _ _ h => h.elim

theorem lowerNode (hb : x.Bears f) {n : Node} (hn : n.Suits x.asks) :
    Lockstep x f Eq (lowerNode part n) (lowerNode part n) := by
  have hself : ∀ m ∈ [n], m.Suits x.asks := by simpa using hn
  unfold Lowering.lowerNode
  cases n with
  | identifier => exact lowerChain hpart hb hself _
  | call => exact lowerChain hpart hb hself _
  | member => exact chainSegments hn fun segments hsegments => lowerChain hpart hb hsegments _
  | literal => exact lowerLiteral hb _ _ _ _
  | list => exact lowerList hpart hb hn
  | range => exact lowerRange hpart hb hn
  | unary => exact lowerUnary hpart hb _ (hn.part (.head _)) _
  | binary => exact lowerBinary hpart hb (hn.part (.head _)) (hn.part (.tail _ (.head _))) _ _
  | group => exact lowerGroup hpart hb hn
  | defaultArg => exact after (emitPush hb _ _ _) (pure rfl)
  | dynamic => exact after (emitPush hb _ _ _) (pure rfl)
  | _ => exact halt _ _ _

end

theorem expressionWithin (depth : Nat) {f : Frame} {n : Node} (hb : x.Bears f) (hn : n.Suits x.asks) :
    Lockstep x f Eq (expressionWithin depth n) (expressionWithin depth n) := by
  induction depth generalizing f n with
  | zero => exact defect _
  | succ depth ih => exact lowerNode (fun g m hg hm => ih hg hm) hb hn

/-- An expression without guides is lowered alike whether guides are asked for or not. -/
theorem expression {n : Node} (hb : x.Bears f) (hn : n.Suits x.asks) :
    Lockstep x f Eq (expression n) (expression n) := expressionWithin _ hb hn

end Lowering.Lockstep

end Diglot
