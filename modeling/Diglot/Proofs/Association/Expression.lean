import Diglot.Proofs.Association.Tree

/-! # Expressions are lowered like their aligned trees

Lowering, probing and storing take a tree apart into segments, subscripts and arguments, and none of them looks at
how the dots between segments are associated: what is done with an aligned tree is what is done with the tree, but
that the parts that are passed on are aligned (`lowerNode_aligned`, `probeNode_aligned`, `assignTo_aligned`). By
recursion over the tree, `expression` does the same with both.
-/

set_option autoImplicit false

namespace Diglot.Lowering

variable {α : Type}

/-- Does with the aligned tree what is done with a tree. -/
def onAligned (part : Node → Lower α) (n : Node) : Lower α := part n.aligned

theorem forM_aligned (part : Node → Lower Unit) (l : List Node) :
    (l.map Node.aligned).forM part = l.forM (onAligned part) := by
  induction l with
  | nil => rfl
  | cons n rest ih =>
    change (part n.aligned >>= fun _ => (rest.map Node.aligned).forM part) = _
    rw [ih]
    rfl

/-! ## Subscripts -/

theorem literalDim?_aligned (n : Node) : literalDim? n.aligned = literalDim? n := by
  cases n with
  | member left right op lastFactor span =>
    obtain ⟨a, b, o, h⟩ := Node.aligned_member left right op lastFactor span
    rw [h]
    rfl
  | _ => rfl

theorem literalDims_aligned (dialect : Dialect) (dims : List Node) :
    literalDims dialect (dims.map Node.aligned) = literalDims dialect dims := by
  cases dialect with
  | associative => simp only [literalDims, List.filterMap_map, Function.comp_def, literalDim?_aligned]
  | imperative => rfl

theorem lowerDims_aligned (part : LowerPart) (dims : List Node) :
    lowerDims part (dims.map Node.aligned) = lowerDims (onAligned part) dims := by
  unfold lowerDims
  rw [forM_aligned]
  rfl

/-! ## Segments of a chain -/

section
variable (part : LowerPart) (c : Cursor)

theorem lowerIdentifier_aligned (ident : Identifier) :
    lowerIdentifier part ident.aligned c = lowerIdentifier (onAligned part) ident c := by
  rw [ident.aligned_eq]
  unfold lowerIdentifier lowerSymbol lowerLate
  simp only [lowerDims_aligned, literalDims_aligned, List.length_map]
  rfl

theorem lowerInvocation_aligned (call : Call) (target : Option ProcRef) :
    lowerInvocation part call.aligned c target = lowerInvocation (onAligned part) call c target := by
  have hargs : (call.args.map Node.aligned).forM (fun a => (do let _ ← part a)) =
      call.args.forM fun a => (do let _ ← onAligned part a) := forM_aligned _ _
  rw [call.aligned_eq]
  unfold lowerInvocation lowerKnownCall lowerLateCall
  simp only [hargs, lowerDims_aligned, literalDims_aligned, List.length_map]

theorem accessedProperty?_aligned (v : Sight) (call : Call) :
    accessedProperty? v call.aligned c = accessedProperty? v call c := by
  rw [call.aligned_eq]
  simp only [accessedProperty?, List.isEmpty_map]

theorem lowerCall_aligned (call : Call) : lowerCall part call.aligned c = lowerCall (onAligned part) call c := by
  have hproperty (property : String) :
      lowerIdentifier part ⟨property, call.aligned.dims, [], call.aligned.span⟩ c =
        lowerIdentifier (onAligned part) ⟨property, call.dims, [], call.span⟩ c := by
    rw [← lowerIdentifier_aligned, Identifier.aligned_eq, call.aligned_eq]
  have hresolved : lowerResolvedCall part call.aligned c = lowerResolvedCall (onAligned part) call c := by
    unfold lowerResolvedCall
    simp only [lowerInvocation_aligned]
    simp only [call.aligned_eq, List.length_map]
  unfold lowerCall
  simp only [accessedProperty?_aligned, hproperty, hresolved]

theorem isValueRoot_aligned (n : Node) : isValueRoot n.aligned = isValueRoot n := by
  cases n with
  | member left right op lastFactor span =>
    obtain ⟨a, b, o, h⟩ := Node.aligned_member left right op lastFactor span
    rw [h]
    rfl
  | _ => rfl

theorem lowerSegment_aligned (isRoot : Bool) (n : Node) :
    lowerSegment part isRoot n.aligned c = lowerSegment (onAligned part) isRoot n c := by
  have hother {m : Node} (hm : m = n.aligned) : (if isRoot && isValueRoot m then lowerValueRoot part m c
      else halt .nonIdentifierSegment "A member access segment must be an identifier or a call." m.span) =
      (if isRoot && isValueRoot n then lowerValueRoot (onAligned part) n c
      else halt .nonIdentifierSegment "A member access segment must be an identifier or a call." n.span) := by
    rw [hm, isValueRoot_aligned, Node.span_aligned]
    rfl
  cases n with
  | identifier ident => exact lowerIdentifier_aligned part c ident
  | call call => exact lowerCall_aligned part c call
  | member left right op lastFactor span =>
    obtain ⟨a, b, o, h⟩ := Node.aligned_member left right op lastFactor span
    rw [h]
    exact hother h.symm
  | _ => exact hother rfl

theorem lowerSegments_aligned (isRoot : Bool) (segments : List Node) :
    lowerSegments part isRoot (segments.map Node.aligned) c =
      lowerSegments (onAligned part) isRoot segments c := by
  induction segments generalizing isRoot c with
  | nil => rfl
  | cons n rest ih =>
    simp only [List.map_cons, lowerSegments, lowerSegment_aligned, ih]

theorem map_unwrap_aligned (segments : List Node) :
    (segments.map Node.aligned).map Node.unwrap = (segments.map Node.unwrap).map Node.aligned := by
  simp only [List.map_map, Function.comp_def, Node.unwrap_aligned]

theorem lowerChain_aligned (segments : List Node) (span : Span) :
    lowerChain part (segments.map Node.aligned) span = lowerChain (onAligned part) segments span := by
  unfold lowerChain
  simp only [map_unwrap_aligned, lowerSegments_aligned, List.isEmpty_map, List.length_map, List.getLast?_map,
    Option.map_map, Function.comp_def, Node.guides_aligned]

end

theorem chainSegments_aligned (n : Node) :
    chainSegments n.aligned = List.map Node.aligned <$> chainSegments n := by
  unfold chainSegments
  rw [Node.segments_aligned]
  cases n.segments with
  | error e => simp only [Except.map]; rfl
  | ok l => simp only [Except.map, map_pure]

/-- A step that goes on with the segments of an aligned chain goes on with aligned segments. -/
theorem bind_chainSegments_aligned (n : Node) (k : List Node → Lower α) :
    chainSegments n.aligned >>= k = chainSegments n >>= fun segments => k (segments.map Node.aligned) := by
  rw [chainSegments_aligned, bind_map_left]

/-! ## Other expressions -/

section
variable (part : LowerPart)

theorem lowerItems_aligned (common : Option Ty) (items : List Node) :
    lowerItems part common (items.map Node.aligned) = lowerItems (onAligned part) common items := by
  induction items generalizing common with
  | nil => rfl
  | cons item rest ih =>
    simp only [List.map_cons, lowerItems, ih]
    cases item with
    | member left right op lastFactor span =>
      obtain ⟨a, b, o, h⟩ := Node.aligned_member left right op lastFactor span
      simp only [onAligned, h]
    | _ => rfl

theorem literalRank_aligned (items : List Node) : literalRank (items.map Node.aligned) = literalRank items := by
  have hitem (n : Node) : itemRank n.aligned = itemRank n := by
    induction hw : n.weight using Nat.strongRecOn generalizing n with
    | ind k ih =>
      cases n with
      | member left right op lastFactor span =>
        obtain ⟨a, b, o, h⟩ := Node.aligned_member left right op lastFactor span
        rw [h]
        rfl
      | list items dims guides span =>
        cases items with
        | nil => rfl
        | cons first rest =>
          have hlt : first.weight < k := by
            rw [← hw]
            simp only [Node.weight, Node.weights]
            omega
          simp [Node.aligned, itemRank, literalRank, ih _ hlt first rfl]
      | literal kind => cases kind <;> rfl
      | _ => rfl
  cases items with
  | nil => rfl
  | cons first rest => simp [literalRank, hitem]

theorem isMovable_aligned (inner : Node) (dims : List Node) :
    isMovable inner.aligned (dims.map Node.aligned) = isMovable inner dims := by
  unfold isMovable
  rw [Node.dims_aligned, List.isEmpty_map, List.isEmpty_map]
  cases inner with
  | member left right op lastFactor span =>
    obtain ⟨a, b, o, h⟩ := Node.aligned_member left right op lastFactor span
    rw [h]
  | _ => rfl

/-- An aligned tree is lowered like the tree, its parts aligned. -/
theorem lowerNode_aligned (n : Node) : lowerNode part n.aligned = lowerNode (onAligned part) n := by
  cases n with
  | identifier ident =>
    have hchain := lowerChain_aligned part [.identifier ident] (Node.identifier ident).aligned.span
    rw [Node.span_aligned] at hchain
    exact (congrArg (lowerChain part [(Node.identifier ident).aligned]) (Node.span_aligned _)).trans hchain
  | call c =>
    have hchain := lowerChain_aligned part [.call c] (Node.call c).aligned.span
    rw [Node.span_aligned] at hchain
    exact (congrArg (lowerChain part [(Node.call c).aligned]) (Node.span_aligned _)).trans hchain
  | member left right op lastFactor span =>
    have hsegments := bind_chainSegments_aligned (.member left right op lastFactor span)
      fun segments => lowerChain part segments span
    obtain ⟨a, b, o, h⟩ := Node.aligned_member left right op lastFactor span
    simp only [lowerChain_aligned, h] at hsegments
    rw [h]
    exact hsegments
  | list items dims guides span =>
    simp only [Node.aligned, Node.alignedAll_eq, lowerNode, lowerList, lowerItems_aligned, lowerDims_aligned,
      literalRank_aligned, List.length_map]
  | range first last step span => cases step <;> rfl
  | group inner dims guides span =>
    simp only [Node.aligned, Node.alignedAll_eq, lowerNode, lowerGroup, isMovable_aligned, Node.ungroup_aligned,
      lowerDims_aligned, List.length_map]
    rfl
  | function f => simp only [Node.aligned, lowerNode, Node.span, f.aligned_eq]
  | classDecl c => simp only [Node.aligned, lowerNode, Node.span, c.aligned_eq]
  | varDecl v => simp only [Node.aligned, lowerNode, Node.span, v.aligned_eq]
  | _ => rfl

end

/-- An aligned tree is lowered like the tree. -/
theorem expression_aligned (n : Node) : expression n.aligned = expression n := by
  have hwithin (depth : Nat) (n : Node) : expressionWithin depth n.aligned = expressionWithin depth n := by
    induction depth generalizing n with
    | zero => rfl
    | succ depth ih =>
      have hpart : onAligned (expressionWithin depth) = expressionWithin depth := funext ih
      rw [expressionWithin, expressionWithin, lowerNode_aligned, hpart]
  rw [expression, expression, n.weight_aligned, hwithin]

theorem onAligned_expression : onAligned expression = expression := funext expression_aligned

/-! ## Looking ahead -/

section
variable (part : ProbePart)

theorem probeSegment_aligned (isSingle : Bool) (n : Node) :
    probeSegment part isSingle n.aligned = probeSegment (onAligned part) isSingle n := by
  cases n with
  | identifier ident =>
    simp only [Node.aligned, probeSegment, probeIdentifier, ident.aligned_eq, forM_aligned]
    rfl
  | call c => simp only [Node.aligned, probeSegment, c.aligned_eq, forM_aligned]
  | member left right op lastFactor span =>
    obtain ⟨a, b, o, h⟩ := Node.aligned_member left right op lastFactor span
    rw [h]
    rfl
  | _ => rfl

theorem probeChain_aligned (segments : List Node) :
    probeChain part (segments.map Node.aligned) = probeChain (onAligned part) segments := by
  have hsegment (isSingle : Bool) : onAligned (probeSegment part isSingle) = probeSegment (onAligned part) isSingle :=
    funext (probeSegment_aligned part isSingle)
  unfold probeChain
  rw [map_unwrap_aligned, forM_aligned, List.isEmpty_map, List.length_map, hsegment]

theorem probeNode_aligned (n : Node) : probeNode part n.aligned = probeNode (onAligned part) n := by
  cases n with
  | identifier ident => exact probeChain_aligned part [.identifier ident]
  | call c => exact probeChain_aligned part [.call c]
  | member left right op lastFactor span =>
    have hsegments := bind_chainSegments_aligned (.member left right op lastFactor span) (probeChain part)
    obtain ⟨a, b, o, h⟩ := Node.aligned_member left right op lastFactor span
    simp only [probeChain_aligned, h] at hsegments
    rw [h]
    exact hsegments
  | list items dims guides span =>
    simp only [Node.aligned, Node.alignedAll_eq, probeNode, ← List.map_append, forM_aligned]
  | range first last step span => cases step <;> rfl
  | group inner dims guides span =>
    simp only [Node.aligned, Node.alignedAll_eq, probeNode, isMovable_aligned, Node.ungroup_aligned, forM_aligned]
    rfl
  | function f => simp only [Node.aligned, probeNode, Node.span, f.aligned_eq]
  | classDecl c => simp only [Node.aligned, probeNode, Node.span, c.aligned_eq]
  | varDecl v => simp only [Node.aligned, probeNode, Node.span, v.aligned_eq]
  | _ => rfl

end

theorem probe_aligned (n : Node) : probe n.aligned = probe n := by
  have hwithin (depth : Nat) (n : Node) : probeWithin depth n.aligned = probeWithin depth n := by
    induction depth generalizing n with
    | zero => rfl
    | succ depth ih =>
      have hpart : onAligned (probeWithin depth) = probeWithin depth := funext ih
      rw [probeWithin, probeWithin, probeNode_aligned, hpart]
  rw [probe, probe, n.weight_aligned, hwithin]

/-! ## Storing -/

theorem storeIdentifier_aligned (ident : Identifier) (type : Ty) :
    storeIdentifier ident.aligned type = storeIdentifier ident type := by
  rw [ident.aligned_eq]
  unfold storeIdentifier targetSymbol
  simp only [lowerDims_aligned, onAligned_expression, literalDims_aligned, List.length_map]

theorem storeMember_aligned (property : Identifier) (segments : List Node) (span : Span) :
    storeMember property.aligned (segments.map Node.aligned) span = storeMember property segments span := by
  have hproperty (c : Cursor) : storeProperty property.aligned c span = storeProperty property c span := by
    rw [property.aligned_eq]
    unfold storeProperty lowerProperty
    simp only [lowerDims_aligned, onAligned_expression, literalDims_aligned, List.length_map]
  have hsetter (v : Sight) (cls : Option Nat) : setter? v cls property.aligned = setter? v cls property := by
    rw [property.aligned_eq]
    unfold setter?
    cases v.frame.dialect <;> cases cls <;> cases property.dims <;> rfl
  have hname : property.aligned.name = property.name := by rw [property.aligned_eq]
  unfold storeMember
  simp only [map_unwrap_aligned, lowerSegments_aligned, onAligned_expression, hproperty, hsetter, hname]

theorem storeChain_aligned (target : Node) : storeChain target.aligned = storeChain target := by
  unfold storeChain
  rw [bind_chainSegments_aligned]
  congr 1
  funext segments
  rw [List.getLast?_map, Node.span_aligned, ← List.map_dropLast]
  cases segments.getLast? with
  | none => rfl
  | some last =>
    cases last with
    | identifier property => exact storeMember_aligned property segments.dropLast target.span
    | member left right op lastFactor span =>
      obtain ⟨a, b, o, h⟩ := Node.aligned_member left right op lastFactor span
      rw [Option.map_some, h]
    | _ => rfl

/-- An aligned target is assigned like the target. -/
theorem assignTo_aligned (target : Node) (type : Ty) : assignTo target.aligned type = assignTo target type := by
  cases target with
  | identifier ident =>
    simp only [Node.aligned, assignTo, storeIdentifier_aligned]
    rw [ident.aligned_eq]
    rfl
  | member left right op lastFactor span =>
    have hchain := storeChain_aligned (.member left right op lastFactor span)
    obtain ⟨a, b, o, h⟩ := Node.aligned_member left right op lastFactor span
    rw [h] at hchain ⊢
    exact hchain
  | call c => simp only [Node.aligned, assignTo, Node.span, c.aligned_eq]
  | function f => simp only [Node.aligned, assignTo, Node.span, f.aligned_eq]
  | classDecl c => simp only [Node.aligned, assignTo, Node.span, c.aligned_eq]
  | varDecl v => simp only [Node.aligned, assignTo, Node.span, v.aligned_eq]
  | _ => rfl

/-! ## Resolving without code -/

namespace Sight

variable (v : Sight)

theorem walkSegment_aligned (c : Cursor) (n : Node) : v.walkSegment c n.aligned = v.walkSegment c n := by
  cases n with
  | identifier ident =>
    simp only [Node.aligned, walkSegment, ident.aligned_eq, List.length_map]
    rfl
  | call call => simp only [Node.aligned, walkSegment, call.aligned_eq, List.length_map]
  | member left right op lastFactor span =>
    obtain ⟨a, b, o, h⟩ := Node.aligned_member left right op lastFactor span
    rw [h]
    rfl
  | _ => rfl

theorem walk_aligned (c : Cursor) (segments : List Node) : v.walk c (segments.map Node.aligned) = v.walk c segments := by
  induction segments generalizing c with
  | nil => rfl
  | cons n rest ih => simp only [List.map_cons, walk, Node.unwrap_aligned, walkSegment_aligned, ih]

theorem splitAnchor?_aligned (segments : List Node) :
    splitAnchor? v (segments.map Node.aligned) = splitAnchor? v segments := by
  have hsingle (root : Node) : splitAnchor? v [root] = none := by cases root <;> rfl
  cases segments with
  | nil => rfl
  | cons root rest =>
    cases rest with
    | nil => exact (hsingle root.aligned).trans (hsingle root).symm
    | cons second rest =>
      cases root with
      | identifier ident => simp only [List.map_cons, Node.aligned, splitAnchor?, ident.aligned_eq]
      | member left right op lastFactor span =>
        obtain ⟨a, b, o, h⟩ := Node.aligned_member left right op lastFactor span
        simp only [List.map_cons, h, splitAnchor?]
      | _ => rfl

end Sight

end Diglot.Lowering
