import Diglot.Proofs.Harvest.Basic
import Diglot.Proofs.Paths.Read

/-! # What expressions gather

An expression gathers what the chains in it add by themselves (`Node.HasChain`, `Gathers.expression`): each records
the path that shows it, puts its literal subscripts behind the node that is held back first, and reads the variables
that its names stand for (`Sight.Admits`).
-/

set_option autoImplicit false

namespace Diglot

/-! ## The chains in an expression -/

namespace Node

/-- What is lowered inside a segment of a chain: arguments and subscripts, or a computed value. -/
def inner : Node → List Node
  | .identifier ident => ident.dims
  | .call c => c.args ++ c.dims
  | n => [n]

/-- The names of variables that a segment of a chain may stand for: a call of an accessor stands for its member. -/
def names : Node → List String
  | .identifier ident => [ident.name]
  | .call c => (propertyName? c.name).toList
  | _ => []

/-- The expressions in an expression that are lowered in its course. The first segment of a chain is one of them if
the chain is split. -/
def operands : Node → List Node
  | .identifier ident => ident.dims
  | .call c => c.args ++ c.dims
  | .member left right op lastFactor span =>
    match (Node.member left right op lastFactor span).segments with
    | .ok segments => segments.head?.toList ++ segments.flatMap fun m => m.unwrap.inner
    | .error _ => []
  | .list items dims _ _ => items ++ dims
  | .range first last step _ => first :: last :: step.toList
  | .unary _ operand _ => [operand]
  | .binary left _ right _ => [left, right]
  | .group inner dims guides _ =>
    if Lowering.isMovable inner dims then [inner.ungroup dims guides] else inner :: dims
  | _ => []

/-- The node is lowered as a chain, maybe of one segment. -/
def isPath : Node → Bool
  | .identifier _ | .call _ | .member .. => true
  | _ => false

/-- Lowering the expression lowers a chain of the given segments. -/
inductive HasChain (segments : List Node) : Node → Prop where
  | whole {n : Node} : n.isPath = true → n.segments = .ok segments → HasChain segments n
  | operand {n m : Node} : m ∈ n.operands → HasChain segments m → HasChain segments n

/-- What is lowered inside of the segments of a chain is lowered in its course. -/
theorem hasChain_inside {value n m : Node} {segments inside : List Node} (hpath : value.isPath = true)
    (hvalue : value.segments = .ok segments) (hn : n ∈ segments) (hm : m ∈ n.unwrap.inner) (h : m.HasChain inside) :
    value.HasChain inside := by
  refine .operand ?_ h
  cases value with
  | identifier =>
    cases hvalue
    obtain rfl := List.mem_singleton.mp hn
    exact hm
  | call =>
    cases hvalue
    obtain rfl := List.mem_singleton.mp hn
    exact hm
  | member =>
    simp only [operands, hvalue]
    exact List.mem_append_right _ (List.mem_flatMap.mpr ⟨n, hn, hm⟩)
  | _ => cases hpath

/-- The first segment of a chain is lowered by itself if the chain is split. -/
theorem hasChain_root {value root : Node} {rest inside : List Node} (hpath : value.isPath = true)
    (hvalue : value.segments = .ok (root :: rest)) (h : root.HasChain inside) : value.HasChain inside := by
  cases value with
  | member =>
    refine .operand ?_ h
    simp [operands, hvalue]
  | identifier =>
    obtain ⟨rfl, -⟩ := List.cons.inj (Except.ok.inj hvalue)
    exact h
  | call =>
    obtain ⟨rfl, -⟩ := List.cons.inj (Except.ok.inj hvalue)
    exact h
  | _ => cases hpath

end Node

/-- The path shows the first segments of a chain, one by one. -/
def Path.Shows (dialect : Dialect) (segments : List Node) (p : Path) : Prop :=
  ∃ front, front <+: segments.map Node.unwrap ∧ List.Forall₂ (Node.ShownBy dialect) front p

namespace Lowering

/-- The path and the literals of a chain of the given segments may be gathered. -/
structure Harvest.Allows (H : Harvest) (dialect : Dialect) (segments : List Node) : Prop where
  path : ∀ p, Path.Shows dialect segments p → H.path p
  literal : ∀ n ∈ segments.map Node.unwrap, ∀ l ∈ literalDims dialect n.dims, H.literal l

/-- A segment of a chain may stand for the symbol: an identifier for what its name is found to be, and the call of an
accessor for its member, behind other segments only. -/
def Sight.MayMean (v : Sight) (n : Node) (r : SymbolRef) : Prop :=
  ∃ name ∈ n.names, ∃ c : Cursor, (c.depth = 0 → ∃ ident, n = .identifier ident) ∧
    v.segmentTarget name c = .symbol r

/-- What a chain of the given segments adds by itself may be gathered. -/
structure Sight.Admits (v : Sight) (H : Harvest) (segments : List Node) : Prop
    extends H.Allows v.frame.dialect segments where
  symbol : ∀ n ∈ segments.map Node.unwrap, ∀ r, v.MayMean n r → H.symbol r

namespace Gathers

variable {v : Sight} {H : Harvest} {part : LowerPart}

/-! ## Segments -/

theorem stopChain (c : Cursor) (span : Span) : Gathers v H (stopChain c span) :=
  neutral (.stopChain _ _) (Neutral.stopChain _ _)

theorem lowerDims {dims : List Node} (h : ∀ d ∈ dims, Gathers v H (part d)) : Gathers v H (lowerDims part dims) :=
  unguided (forM fun d hd => bind (h d hd) fun _ => pure _)

theorem emitCallTo (op : OpCode) (r : ProcRef) (depth : Nat) (span : Span) :
    Gathers v H (emitCallTo op r depth span) := by
  refine ofInert (.emitCallTo _ _ _ _) (P := (·.Calls r op depth)) (.emit (fun debug => ⟨debug, rfl⟩) _) ?_
  rintro _ ⟨debug, rfl⟩
  refine .inl fun o ho => ?_
  simp only [Instruction.ternary, Instruction.operands, Option.toList_some, List.cons_append, List.nil_append,
    List.mem_cons, List.not_mem_nil, or_false] at ho
  rcases ho with rfl | rfl | rfl <;> rfl

theorem lowerKnownCall (call : Call) (c : Cursor) (r : ProcRef) : Gathers v H (lowerKnownCall call c r) := by
  have hcallee : Gathers v H (modify fun s : State => { s with lastCallee := some r }) := by
    intro b s a t _ hrun
    cases hrun
    exact .ofSession rfl rfl rfl (.refl _) (.ofSilent (.refl _))
  refine bind (emitCallTo _ _ _ _) fun _ => withSession fun s => ?_
  split
  · exact throw _
  · exact onlyIf hcallee (pure _)

section
variable (hv : v.LooksAround) {ident : Identifier} (hdims : ∀ d ∈ ident.dims, Gathers v H (part d))
include hdims

theorem lowerLate (c : Cursor) : Gathers v H (lowerLate part ident c) := by
  refine onlyIf (neutral (.warnUnbound _ _) (.warnUnbound _ _)) ?_
  refine after (.registerLateVariable _ _) (.registerLateVariable _ _) fun p => bind (lowerDims hdims) fun _ => ?_
  refine onlyIf (neutral (.emitPushDims _) (Neutral.emitPushDims _)) ?_
  exact after .classScope .classScope fun cls => after (.emitPushm _ _ _) (Neutral.emitPushm rfl _ _) fun _ => pure _

include hv

theorem lowerSymbol (c : Cursor) {r : SymbolRef} (hr : H.symbol r)
    (hliterals : ∀ l ∈ literalDims v.frame.dialect ident.dims, H.literal l) :
    Gathers v H (lowerSymbol part ident c r) := by
  refine withSymbol fun x hx => ?_
  split
  · exact withSight hv fun b s _ => after (.report _ _ _) (.report rfl _ _) fun _ => stopChain _ _
  · refine bind (lowerDims hdims) fun _ => withFrame fun b => ?_
    have hpushm : Gathers v H (emitPushm (.ofSymbol x) x.classScope ident.span) :=
      accesses hr hx (.emitPushm _ _ _) (Accessing.emitPushm x _)
    refine bind (recordSplitDims false fun _ => hliterals) fun _ => ite ?_ (onlyIf ?_ ?_)
    · exact bind (accesses hr hx (.emitPush _ _ _) (Accessing.emitPush x _ _)) fun _ => pure _
    · exact neutral (.emitPushDims _) (Neutral.emitPushDims _)
    · exact bind hpushm fun _ => pure _

theorem lowerIdentifier (c : Cursor) (hsymbol : ∀ r, v.segmentTarget ident.name c = .symbol r → H.symbol r)
    (hliterals : ∀ l ∈ literalDims v.frame.dialect ident.dims, H.literal l) :
    Gathers v H (lowerIdentifier part ident c) := by
  refine ite (neutral (.lowerThis _ _) (Neutral.lowerThis _ _)) (withSight hv fun b s hs => ?_)
  rw [Sight.segmentTarget_congr hs b]
  cases htarget : v.segmentTarget ident.name c with
  | symbol r => exact lowerSymbol hv hdims c (hsymbol r htarget) hliterals
  | cls id => exact neutral (.lowerClassName _ _ _) (Neutral.lowerClassName _ _ _)
  | inaccessible => exact neutral (.lowerInaccessible _ _) (Neutral.lowerInaccessible _ _)
  | arrayReceiver => exact stopChain _ _
  | unbound => exact ite (after (.warnUnbound _ _) (.warnUnbound _ _) fun _ => stopChain _ _) (lowerLate hdims c)

end

section
variable {call : Call} (hinner : ∀ m ∈ call.args ++ call.dims, Gathers v H (part m))
include hinner

theorem lowerInvocation (c : Cursor) (target : Option ProcRef) : Gathers v H (lowerInvocation part call c target) := by
  have hdims : Gathers v H (Lowering.lowerDims part call.dims) :=
    lowerDims fun d hd => hinner d (List.mem_append_right _ hd)
  have hrest (p : Ty × Segment) : Gathers v H (finishInvocation part call c target p) := by
    refine bind hdims fun _ => onlyIf (neutral (.emitPushIndex _) (Neutral.emitPushIndex rfl)) ?_
    exact withFrame fun b => pure _
  refine bind (forM fun a ha => bind (hinner a (List.mem_append_left _ ha)) fun _ => pure _) fun _ => ?_
  cases target with
  | some r => exact bind (lowerKnownCall call c r) hrest
  | none => exact bind (neutral (.lowerLateCall _ _) (Neutral.lowerLateCall _ _)) hrest

variable (hv : v.LooksAround)
include hv

theorem lowerResolvedCall (c : Cursor) : Gathers v H (lowerResolvedCall part call c) := by
  refine withSight hv fun b s _ => ?_
  split
  · exact lowerInvocation hinner c _
  · exact lowerInvocation hinner c none
  · exact after (.report _ _ _) (.report rfl _ _) fun _ => stopChain _ _
  · exact after (.report _ _ _) (.report rfl _ _) fun _ => stopChain _ _
  · exact stopChain _ _

theorem lowerCall (c : Cursor) (hsymbol : ∀ r, v.MayMean (.call call) r → H.symbol r)
    (hliterals : ∀ l ∈ literalDims v.frame.dialect call.dims, H.literal l) : Gathers v H (lowerCall part call c) := by
  refine guidedCall (withSight hv fun b s _ => ?_)
  cases hproperty : accessedProperty? ⟨s, { v.frame with isGuided := b }, v.blocks⟩ call c with
  | some property =>
    have hname : propertyName? call.name = some property ∧ c.depth ≠ 0 := by
      unfold accessedProperty? at hproperty
      split at hproperty
      · cases hproperty
      · next property' hname =>
        rw [hname]
        split at hproperty
        · next hbehind =>
          have hdepth : c.depth ≠ 0 := by
            have := (Bool.and_eq_true_iff.mp hbehind).2
            simpa [Nat.pos_iff_ne_zero] using this
          split at hproperty <;> cases hproperty <;> exact ⟨rfl, hdepth⟩
        · cases hproperty
    refine lowerIdentifier hv (fun d hd => hinner d (List.mem_append_right _ hd)) c (fun r hr => ?_) hliterals
    exact hsymbol r ⟨property, by simp [Node.names, hname.1], c, fun hroot => absurd hroot hname.2, hr⟩
  | none => exact lowerResolvedCall hinner hv c

end

section
variable (hv : v.LooksAround)
include hv

theorem lowerSegment {n : Node} (hinner : ∀ m ∈ n.inner, Gathers v H (part m)) (isRoot : Bool) (c : Cursor)
    (hsymbol : ∀ r, v.MayMean n r → H.symbol r)
    (hliterals : ∀ l ∈ literalDims v.frame.dialect n.dims, H.literal l) :
    Gathers v H (lowerSegment part isRoot n c) := by
  unfold Lowering.lowerSegment
  split
  · next ident =>
    refine lowerIdentifier hv hinner c (fun r hr => hsymbol r ?_) hliterals
    exact ⟨ident.name, List.mem_singleton.mpr rfl, c, fun _ => ⟨ident, rfl⟩, hr⟩
  · exact lowerCall hinner hv c hsymbol hliterals
  · next hidentifier hcall =>
    refine ite (bind (hinner n ?_) fun _ => pure _) (halt _ _ _)
    cases n with
    | identifier ident => exact absurd rfl (hidentifier ident)
    | call call => exact absurd rfl (hcall call)
    | _ => exact List.mem_singleton.mpr rfl

/-- The segments are those of a chain, without parentheses. -/
theorem lowerSegments (isRoot : Bool) {segments : List Node} (c : Cursor)
    (hinner : ∀ n ∈ segments, ∀ m ∈ n.inner, Gathers v H (part m))
    (hsymbol : ∀ n ∈ segments, ∀ r, v.MayMean n r → H.symbol r)
    (hliterals : ∀ n ∈ segments, ∀ l ∈ literalDims v.frame.dialect n.dims, H.literal l) :
    Gathers v H (lowerSegments part isRoot segments c) := by
  induction segments generalizing isRoot c with
  | nil => exact pure _
  | cons n rest ih =>
    have hfirst := List.mem_cons_self (a := n) (l := rest)
    have hone := lowerSegment hv (hinner n hfirst) isRoot c (hsymbol n hfirst) (hliterals n hfirst)
    refine ite (pure _) (bind hone fun d => ?_)
    exact ih false d (fun m hm => hinner m (List.mem_cons_of_mem n hm))
      (fun m hm => hsymbol m (List.mem_cons_of_mem n hm)) fun m hm => hliterals m (List.mem_cons_of_mem n hm)

/-- What a chain records is the path that shows it. -/
theorem lowerChain {segments : List Node} (h : v.Admits H segments)
    (hinner : ∀ n ∈ segments, ∀ m ∈ n.unwrap.inner, Gathers v H (part m)) (span : Span) :
    Gathers v H (lowerChain part segments span) := by
  by_cases hne : segments = []
  · rw [hne]
    exact fun _ _ _ _ _ hrun => by cases hrun
  have hwalk (isSingle : Bool) : Gathers v H (do
      let c ← Lowering.lowerSegments part true (segments.map Node.unwrap) (.start isSingle)
      if 1 < c.depth then
        let _ ← emitPushlist c.depth c.afterCall span
      return c) := by
    refine bind (lowerSegments hv true _ (fun n hn => ?_) h.symbol h.literal) fun c => ?_
    · obtain ⟨m, hm, rfl⟩ := List.mem_map.mp hn
      exact hinner m hm
    · exact onlyIf (neutral (.emitPushlist _ _ _) (Neutral.emitPushlist _ _ _)) (pure _)
  have hcursor : Gathers v H (chainCursor part segments span) :=
    after .guidesWanted .guidesWanted fun on => onlyIf (neutral (.emitGuides _) (Neutral.emitGuides _)) (hwalk _)
  rw [lowerChain_eq part hne]
  refine bindOk hcursor fun c hc => ?_
  obtain ⟨b, s, t, hrun⟩ := hc
  exact bind (recordRead (h.path c.path (chainCursor_shows (f := { v.frame with isGuided := b }) hrun)) _) fun _ => pure _

end

/-! ## Expressions -/

theorem lowerItems (common : Option Ty) {items : List Node} (hitems : ∀ m ∈ items, Gathers v H (part m)) :
    Gathers v H (lowerItems part common items) := by
  induction items generalizing common with
  | nil => exact pure _
  | cons item rest ih =>
    have hrest := fun common => ih common fun m hm => hitems m (List.mem_cons_of_mem item hm)
    unfold Lowering.lowerItems
    split
    · exact after (.lowerLiteral _ _ _ _) (Neutral.lowerLiteral _ _ _ _) fun _ => hrest _
    · exact bind (hitems _ (List.mem_cons_self ..)) fun _ => hrest _

theorem lowerList {items dims : List Node} (h : ∀ m ∈ items ++ dims, Gathers v H (part m)) (guides : List Guide) :
    Gathers v H (lowerList part items dims guides) := by
  refine bind (unguided (lowerItems _ fun m hm => h m (List.mem_append_left _ hm))) fun common => ?_
  refine after (.emitAlloca _ _) (Neutral.emitAlloca _ _) fun _ => ?_
  refine bind (lowerDims fun m hm => h m (List.mem_append_right _ hm)) fun _ => ?_
  refine onlyIf (neutral (.emitPushIndex _) (Neutral.emitPushIndex rfl)) ?_
  exact after .guidesWanted .guidesWanted fun on => onlyIf (neutral (.emitGuides _) (Neutral.emitGuides _)) (pure _)

theorem lowerRange {first last : Node} {step : Option Node}
    (h : ∀ m ∈ first :: last :: step.toList, Gathers v H (part m)) (span : Span) :
    Gathers v H (lowerRange part first last step span) := by
  have hrange : Gathers v H (do
      let _ ← emit (.bare .range) span
      return (⟨some Primitive.var.uid, 1⟩ : Ty)) :=
    after (.emit _ span) (.emit (fun _ => Instruction.isNeutral_bare .range) span) fun _ => pure _
  refine bind (h first (by simp)) fun _ => bind (h last (by simp)) fun _ => ?_
  cases step with
  | some step => exact bind (h step (by simp)) fun _ => hrange
  | none => exact after (.emitPush _ _ _) (Neutral.emitPush rfl _ _) fun _ => hrange

theorem lowerUnary (op : UnaryOperator) {operand : Node} (h : Gathers v H (part operand)) (span : Span) :
    Gathers v H (lowerUnary part op operand span) := by
  refine bind h fun _ => after .classScope .classScope fun cls => ?_
  refine after (.emitPop _ _ _) (Neutral.emitPop rfl _ _) fun _ => ?_
  refine after (.emit _ span) (.emit (fun _ => Instruction.isNeutral_unary (.ofUnary op) rfl) span) fun _ => ?_
  exact after (.emitPush _ _ _) (Neutral.emitPush rfl _ _) fun _ => pure _

theorem lowerBinary {left right : Node} (hleft : Gathers v H (part left)) (hright : Gathers v H (part right))
    (op : Operator) (span : Span) : Gathers v H (lowerBinary part left op right span) := by
  unfold Lowering.lowerBinary
  split
  · exact halt _ _ _
  · next opcode _ =>
    refine bind hleft fun _ => bind hright fun _ => after .classScope .classScope fun cls => ?_
    refine after (.emitPop _ _ _) (Neutral.emitPop rfl _ _) fun _ => ?_
    refine after (.emitPop _ _ _) (Neutral.emitPop rfl _ _) fun _ => ?_
    refine after (.emit _ span) (.emit (fun _ => Instruction.isNeutral_binary opcode rfl rfl) span) fun _ => ?_
    exact after (.emitPush _ _ _) (Neutral.emitPush rfl _ _) fun _ => pure _

theorem lowerGroup {inner : Node} {dims : List Node} {guides : List Guide}
    (h : ∀ m ∈ if isMovable inner dims then [inner.ungroup dims guides] else inner :: dims, Gathers v H (part m)) :
    Gathers v H (lowerGroup part inner dims guides) := by
  unfold Lowering.lowerGroup
  split
  · next hmovable =>
    rw [if_pos hmovable] at h
    exact h _ (List.mem_singleton.mpr rfl)
  · next hstays =>
    rw [if_neg hstays] at h
    refine bind (h _ (List.mem_cons_self ..)) fun type => ?_
    refine bind (lowerDims fun m hm => h m (List.mem_cons_of_mem inner hm)) fun _ => ?_
    exact onlyIf (neutral (.emitPushIndex _) (Neutral.emitPushIndex rfl)) (pure _)

section
variable (hv : v.LooksAround)
include hv

/-- An expression gathers what its chain adds, if it is one, and what its operands gather. -/
theorem lowerNode {node : Node} (hpart : ∀ m ∈ node.operands, Gathers v H (part m))
    (hchain : node.isPath = true → ∀ segments, node.segments = .ok segments → v.Admits H segments) :
    Gathers v H (lowerNode part node) := by
  cases node with
  | identifier ident =>
    refine lowerChain hv (hchain rfl _ rfl) (fun n hn m hm => ?_) _
    obtain rfl := List.mem_singleton.mp hn
    exact hpart m hm
  | call call =>
    refine lowerChain hv (hchain rfl _ rfl) (fun n hn m hm => ?_) _
    obtain rfl := List.mem_singleton.mp hn
    exact hpart m hm
  | member left right op lastFactor span =>
    change Gathers v H (chainSegments _ >>= fun segments => Lowering.lowerChain part segments span)
    unfold chainSegments
    cases hsegments : (Node.member left right op lastFactor span).segments with
    | error e => exact fun _ _ _ _ _ hrun => by cases hrun
    | ok segments =>
      simp only [Node.operands, hsegments] at hpart
      refine lowerChain hv (hchain rfl _ hsegments) (fun n hn m hm => hpart m ?_) span
      exact List.mem_append_right _ (List.mem_flatMap.mpr ⟨n, hn, hm⟩)
  | literal => exact neutral (.lowerLiteral _ _ _ _) (Neutral.lowerLiteral _ _ _ _)
  | list items dims guides span => exact lowerList hpart guides
  | range first last step span => exact lowerRange hpart span
  | unary op operand span => exact lowerUnary op (hpart operand (List.mem_singleton.mpr rfl)) span
  | binary left op right span =>
    exact lowerBinary (hpart left (List.mem_cons_self ..)) (hpart right (by simp [Node.operands])) op span
  | group inner dims guides span => exact lowerGroup hpart
  | defaultArg => exact after (.emitPush _ _ _) (Neutral.emitPush rfl _ _) fun _ => pure _
  | dynamic => exact after (.emitPush _ _ _) (Neutral.emitPush rfl _ _) fun _ => pure _
  | _ => exact halt _ _ _

/-- An expression gathers what the chains in it add. -/
theorem expressionWithin (depth : Nat) (node : Node) (h : ∀ segments, node.HasChain segments → v.Admits H segments) :
    Gathers v H (expressionWithin depth node) := by
  induction depth generalizing node with
  | zero => exact throw _
  | succ depth ih =>
    refine lowerNode hv (fun m hm => ih m fun segments hsegments => h segments (.operand hm hsegments)) ?_
    exact fun hpath segments hsegments => h segments (.whole hpath hsegments)

theorem expression (node : Node) (h : ∀ segments, node.HasChain segments → v.Admits H segments) :
    Gathers v H (expression node) := expressionWithin hv node.weight node h

end

end Gathers

end Lowering

end Diglot

/-! ## What stores gather

Once it is known which symbol a store goes to, it gathers what the chains in its target add, and accesses the symbol
(`Gathers.storeAt`, `Gathers.storeMember`). Before the last segment of a chain nothing is recorded.
-/

namespace Diglot.Lowering

namespace Gathers

variable {v : Sight} {H : Harvest}

theorem recordIndexing (literals : List Segment) : Gathers v H (recordIndexing literals) := by
  refine withFrame fun b => ?_
  split
  case isFalse => exact pure ()
  intro b s a t _ hrun
  cases hrun
  have hkept := Gathered.refl v H s
  have hnode : literals.foldl GraphNode.addDim { s.node with isIndexing := true } =
      { s.node with isIndexing := true, dims := s.node.dims ++ literals } := by
    rw [GraphNode.foldl_addDim]
    simp [GraphNode.tacked, GraphNode.tackedPath_nil, GraphNode.onLast_id]
  refine ⟨⟨rfl, hkept.held, ?_, ?_, ?_⟩, .refl _, hkept.code⟩
  all_goals dsimp only; rw [hnode]
  · exact hkept.inputs
  · exact id
  · rfl

theorem untracked {α : Type} {m : Lower α}
    (h : Gathers { v with frame := { v.frame with isTracked := false } } H m) : Gathers v H (untracked m) := by
  intro b s a t hs hrun
  have hst := h b s a t hs hrun
  exact ⟨hst.toEnriched, hst.names, hst.code⟩

theorem emitStore {r : SymbolRef} {x : Symbol} (hr : H.symbol r) (hx : v.session.symbol? r = some x) (dims : Nat)
    (span : Span) : Gathers v H (emitStore x dims span) :=
  bind (neutral (.emitPushVarData _ _ _) (Neutral.emitPushVarData _ _ _)) fun _ =>
    accesses hr hx (.emitPopSymbol _ _ _) (Accessing.emitPopSymbol _ _ _)

/-- A plain name is stored into behind its subscripts. -/
theorem storeAt (hv : v.LooksAround) {ident : Identifier} {r : SymbolRef} (hr : H.symbol r)
    (hchains : ∀ d ∈ ident.dims, ∀ segments, d.HasChain segments → v.Admits H segments) :
    Gathers v H (do
      let symbol ← getSymbol r
      Lowering.lowerDims Lowering.expression ident.dims
      let dims := ident.dims.length
      if 0 < dims then
        let literals := literalDims (← read).dialect ident.dims
        Lowering.recordIndexing literals
        Lowering.recordSplitDims literals true
      let _ ← Lowering.emitStore symbol dims ident.span
      return ([.ofName ident.name (some r) symbol.classScope] : Path)) := by
  refine withSymbol fun x hx => bind (lowerDims fun d hd => expression hv d (hchains d hd)) fun _ => ?_
  refine ite (withFrame fun b => bind (recordIndexing _) fun _ => ?_) ?_
  · exact bind (recordSplitDims true nofun) fun _ => bind (emitStore hr hx _ _) fun _ => pure _
  · exact bind (emitStore hr hx _ _) fun _ => pure _

theorem lowerProperty (property : Identifier) (c : Cursor) {resolution : Resolution} (span : Span)
    (hsymbol : ∀ r, resolution = .found r → H.symbol r) :
    Gathers v H (lowerProperty property c resolution span) := by
  cases resolution with
  | found r =>
    refine withSymbol fun x hx => bind ?_ fun _ => pure _
    exact accesses (hsymbol r rfl) hx (.emitPushm _ _ _) (Accessing.emitPushm x _)
  | inaccessible r =>
    exact after (.report _ _ _) (.report rfl _ _) fun _ => bind (neutral (.emitPush _ _ _) (Neutral.emitPush rfl _ _))
      fun _ => pure _
  | unbound =>
    refine onlyIf (neutral (.warnUnbound _ _) (.warnUnbound _ _)) ?_
    refine after (.registerLateVariable _ _) (.registerLateVariable _ _) fun p => ?_
    exact after .classScope .classScope fun cls => after (.emitPushm _ _ _) (Neutral.emitPushm rfl _ _) fun _ => pure _

section
variable (hv : v.LooksAround) {property : Identifier} (hchains : ∀ d ∈ property.dims, ∀ segments,
  d.HasChain segments → v.Admits H segments) (hsymbol : ∀ cls r, v.inClass cls property.name = .found r → H.symbol r)
include hv hchains hsymbol

theorem storeProperty (c : Cursor) (span : Span) : Gathers v H (storeProperty property c span) := by
  refine withSight hv fun b s hs => ?_
  have hrest (resolution : Resolution) (hfound : ∀ r, resolution = .found r → H.symbol r) : Gathers v H (do
      let c ← Lowering.lowerProperty property c resolution span
      let _ ← emitPoplist (c.depth + 1) v.frame.scope.classScope span
      return c.path) :=
    bind (lowerProperty _ _ _ hfound) fun _ =>
      bind (neutral (.emitPoplist _ _ _) (Neutral.emitPoplist _ _ _)) fun _ => pure _
  have hboth {resolution : Resolution} (hfound : ∀ r, resolution = .found r → H.symbol r) {dims : Lower Unit}
      (hdims : Gathers v H dims) := bind hdims fun _ =>
    bind (neutral (.emitPushDims property.dims.length) (Neutral.emitPushDims _)) fun _ => hrest resolution hfound
  refine bind (lowerDims fun d hd => expression hv d (hchains d hd)) fun _ => ?_
  generalize c.receiver? = receiver
  cases receiver with
  | some cls =>
    have hfound (r : SymbolRef) (hr : Sight.inClass ⟨s, { v.frame with isGuided := b }, v.blocks⟩ cls property.name = .found r) :
        H.symbol r := by
      rw [Sight.inClass_congr hs] at hr
      exact hsymbol cls r hr
    exact ite (hboth hfound (recordIndexing _)) (hrest _ hfound)
  | none =>
    have hunbound (r : SymbolRef) (hr : Resolution.unbound = .found r) : H.symbol r := by cases hr
    exact ite (hboth hunbound (recordIndexing _)) (hrest _ hunbound)

/-- A member is stored into behind the segments of its chain, which are no inputs themselves. -/
theorem storeMember {segments : List Node}
    (hbefore : Gathers { v with frame := { v.frame with isTracked := false } } H
      (Lowering.lowerSegments Lowering.expression false (segments.map Node.unwrap) (.start false))) (span : Span) :
    Gathers v H (storeMember property segments span) := by
  refine bind (untracked hbefore) fun c => withSight hv fun b s _ => ite ?_ ?_
  · exact bind (neutral (.emitPoplist _ _ _) (Neutral.emitPoplist _ _ _)) fun _ => pure _
  · split
    · exact bind (emitCallTo _ _ _ _) fun _ => pure _
    · exact storeProperty hv hchains hsymbol c span

end

end Gathers

end Diglot.Lowering
