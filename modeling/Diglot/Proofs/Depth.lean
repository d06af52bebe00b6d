import Diglot.Proofs.Run

/-! # The bound on the depth of lowering

`expression` and `statement` recurse on a bound for the depth, which they take from the weight of the
tree. The bound never bites: a part is lighter than the whole, so that both functions satisfy the
equation of a plain recursion over the tree (`expression_eq`, `statement_eq`).

Each `_congr` lemma says that a form of expression or statement is lowered alike by two callbacks
that agree on what is light enough to be a part of it.
-/

set_option autoImplicit false

namespace Diglot

/-! ## Weights of parts -/

namespace Node

theorem weight_ungroup_le (inner : Node) (dims : List Node) (guides : List Guide) :
    (inner.ungroup dims guides).weight ≤ inner.weight + weights dims := by
  unfold ungroup
  split
  · omega
  · cases inner with
    | identifier i =>
      cases i
      simp only [setSubscripts?, Option.getD_some, weight, Identifier.weight]
      omega
    | call c =>
      cases c
      simp only [setSubscripts?, Option.getD_some, weight, Call.weight]
      omega
    | list items ds gs s =>
      simp only [setSubscripts?, Option.getD_some, weight]
      omega
    | group e ds gs s =>
      simp only [setSubscripts?, Option.getD_some, weight]
      omega
    | _ =>
      simp only [setSubscripts?, Option.getD_none]
      omega

theorem weight_unwrap_le (n : Node) : n.unwrap.weight ≤ n.weight := by
  fun_induction unwrap n with
  | case1 inner dims guides span hinner ih =>
    have h := weight_ungroup_le inner.unwrap dims guides
    simp only [weight]
    omega
  | case2 inner dims guides span hinner => exact Nat.le_refl _
  | case3 n hn => exact Nat.le_refl _

theorem segments_ne_nil {n : Node} {l : List Node} (h : n.segments = .ok l) : l ≠ [] := by
  fun_induction segments n generalizing l with
  | case1 => cases h
  | case2 => cases h
  | case3 left right lastFactor span ls hls rs hrs ihl ihr =>
    cases h
    have := ihl hls
    simp [this]
  | case4 => cases h
  | case5 n hn =>
    cases h
    simp

theorem weight_le_of_mem_segments {n m : Node} {l : List Node} (h : n.segments = .ok l)
    (hm : m ∈ l) : m.weight ≤ n.weight := by
  fun_induction segments n generalizing l with
  | case1 => cases h
  | case2 => cases h
  | case3 left right lastFactor span ls hls rs hrs ihl ihr =>
    cases h
    simp only [weight]
    rcases List.mem_append.mp hm with hm | hm
    · have := ihl hls hm
      omega
    · have := ihr hrs hm
      omega
  | case4 => cases h
  | case5 n hn =>
    cases h
    exact Nat.le_of_eq (by rw [List.mem_singleton.mp hm])

/-- The segments of a chain that is joined by a dot are parts of it. -/
theorem weight_lt_of_mem_segments {left right m : Node} {op : Operator} {lastFactor : Bool}
    {span : Span} {l : List Node} (h : (Node.member left right op lastFactor span).segments = .ok l)
    (hm : m ∈ l) : m.weight < (Node.member left right op lastFactor span).weight := by
  have hle : m.weight ≤ left.weight ∨ m.weight ≤ right.weight := by
    simp only [segments] at h
    split at h
    · cases hl : left.segments with
      | error e => simp [hl] at h
      | ok ls =>
        cases hr : right.segments with
        | error e => simp [hl, hr] at h
        | ok rs =>
          simp only [hl, hr, Except.ok.injEq] at h
          subst h
          rcases List.mem_append.mp hm with hm | hm
          · exact .inl (weight_le_of_mem_segments hl hm)
          · exact .inr (weight_le_of_mem_segments hr hm)
    · cases h
  simp only [weight]
  omega

end Node

namespace Lowering

theorem forM_congr {α : Type} {l : List α} {p q : α → Lower Unit} (h : ∀ a ∈ l, p a = q a) :
    l.forM p = l.forM q := by
  induction l with
  | nil => rfl
  | cons a rest ih =>
    have ha : p a = q a := h a (List.mem_cons_self ..)
    have hrest : rest.forM p = rest.forM q := ih fun b hb => h b (List.mem_cons_of_mem a hb)
    change (do p a; rest.forM p) = (do q a; rest.forM q)
    rw [ha, hrest]

/-! ## Expressions -/

section
variable {p q : LowerPart} {k : Nat} (h : ∀ n : Node, n.weight ≤ k → p n = q n)
include h

theorem lowerDims_congr {dims : List Node} (hd : Node.weights dims ≤ k) :
    lowerDims p dims = lowerDims q dims := by
  unfold lowerDims
  rw [forM_congr fun n hn => ?_]
  rw [h n (Nat.le_trans (Node.weight_le_weights hn) hd)]

theorem lowerIdentifier_congr {ident : Identifier} (hi : Node.weights ident.dims ≤ k) (c : Cursor) :
    lowerIdentifier p ident c = lowerIdentifier q ident c := by
  unfold lowerIdentifier lowerSymbol lowerLate
  simp only [lowerDims_congr h hi]

theorem lowerCall_congr {call : Call} (ha : Node.weights call.args ≤ k)
    (hd : Node.weights call.dims ≤ k) (c : Cursor) : lowerCall p call c = lowerCall q call c := by
  have hargs : (call.args.forM fun a => (do let _ ← p a)) =
      call.args.forM fun a => (do let _ ← q a) := by
    refine forM_congr fun a hmem => ?_
    rw [h a (Nat.le_trans (Node.weight_le_weights hmem) ha)]
  have hprop : ∀ property, lowerIdentifier p ⟨property, call.dims, [], call.span⟩ c =
      lowerIdentifier q ⟨property, call.dims, [], call.span⟩ c := by
    intro property
    exact lowerIdentifier_congr h hd c
  unfold lowerCall lowerResolvedCall lowerInvocation
  simp only [hargs, lowerDims_congr h hd, hprop]

theorem lowerSegment_congr (isRoot : Bool) {segment : Node} (hs : segment.weight ≤ k + 1)
    (hv : isValueRoot segment = true → segment.weight ≤ k) (c : Cursor) :
    lowerSegment p isRoot segment c = lowerSegment q isRoot segment c := by
  unfold lowerSegment
  cases segment with
  | identifier ident =>
    refine lowerIdentifier_congr h ?_ c
    cases ident
    simp only [Node.weight, Identifier.weight] at hs
    exact Nat.le_of_succ_le_succ hs
  | call call =>
    cases call
    simp only [Node.weight, Call.weight] at hs
    refine lowerCall_congr h ?_ ?_ c <;> dsimp only <;> omega
  | _ =>
    simp only [lowerValueRoot]
    split
    · rename_i hroot
      rw [h _ (hv (by simp_all))]
    · rfl

theorem lowerSegments_congr (isRoot : Bool) {segments : List Node}
    (hs : ∀ n ∈ segments, n.weight ≤ k + 1 ∧ (isValueRoot n = true → n.weight ≤ k)) (c : Cursor) :
    lowerSegments p isRoot segments c = lowerSegments q isRoot segments c := by
  induction segments generalizing isRoot c with
  | nil => rfl
  | cons n rest ih =>
    obtain ⟨hn, hv⟩ := hs n (List.mem_cons_self ..)
    have hrest := fun c => ih false (fun m hm => hs m (List.mem_cons_of_mem n hm)) c
    simp only [lowerSegments, lowerSegment_congr h isRoot hn hv, hrest]

theorem lowerChain_congr {segments : List Node} (span : Span)
    (hs : ∀ n ∈ segments, n.unwrap.weight ≤ k + 1 ∧
      (isValueRoot n.unwrap = true → n.unwrap.weight ≤ k)) :
    lowerChain p segments span = lowerChain q segments span := by
  unfold lowerChain
  have hparts : ∀ n ∈ segments.map Node.unwrap,
      n.weight ≤ k + 1 ∧ (isValueRoot n = true → n.weight ≤ k) := by
    intro n hn
    obtain ⟨m, hm, rfl⟩ := List.mem_map.mp hn
    exact hs m hm
  have hc := lowerSegments_congr h true hparts
  simp only [hc]

theorem lowerItems_congr (common : Option Ty) {items : List Node} (hi : Node.weights items ≤ k) :
    lowerItems p common items = lowerItems q common items := by
  induction items generalizing common with
  | nil => rfl
  | cons n rest ih =>
    simp only [Node.weights] at hi
    have hn : p n = q n := h n (by omega)
    have hrest := fun common => ih common (by omega)
    unfold lowerItems
    simp only [hrest]
    split
    · rfl
    · rw [hn]

end

/-- An expression is lowered alike by callbacks that agree on its parts. -/
theorem lowerNode_congr {p q : LowerPart} {n : Node}
    (h : ∀ m : Node, m.weight < n.weight → p m = q m) : lowerNode p n = lowerNode q n := by
  have hle : ∀ m : Node, m.weight ≤ n.weight - 1 → p m = q m := by
    intro m hm
    have := n.weight_pos
    exact h m (by omega)
  have hpos := n.weight_pos
  unfold lowerNode
  cases n with
  | identifier i =>
    refine lowerChain_congr hle _ fun n hn => ?_
    rw [List.mem_singleton.mp hn]
    exact ⟨by simp only [Node.unwrap]; omega, fun hv => by cases hv⟩
  | call c =>
    refine lowerChain_congr hle _ fun n hn => ?_
    rw [List.mem_singleton.mp hn]
    exact ⟨by simp only [Node.unwrap]; omega, fun hv => by cases hv⟩
  | member left right op lastFactor span =>
    dsimp only [chainSegments]
    cases hseg : (Node.member left right op lastFactor span).segments with
    | error e =>
      funext f s
      simp only [run_bind, run_halt]
    | ok segments =>
      have hchain : lowerChain p segments span = lowerChain q segments span := by
        refine lowerChain_congr hle _ fun n hn => ?_
        have hlt := Node.weight_lt_of_mem_segments hseg hn
        have hunwrap := n.weight_unwrap_le
        omega
      simp only [pure_bind, hchain]
  | list items dims guides span =>
    simp only [Node.weight, Nat.add_sub_cancel] at hle
    have hitems : lowerItems p none items = lowerItems q none items :=
      lowerItems_congr hle none (by omega)
    have hdims : lowerDims p dims = lowerDims q dims := lowerDims_congr hle (by omega)
    simp only [lowerList, hitems, hdims]
  | range first last step span =>
    simp only [Node.weight, Nat.add_sub_cancel] at hle
    have hfirst := hle first (by omega)
    have hlast := hle last (by omega)
    simp only [lowerRange, hfirst, hlast]
    cases step with
    | none => rfl
    | some step =>
      have hstep := hle step (by simp only [Node.optWeight]; omega)
      simp only [hstep]
  | unary op e span =>
    simp only [Node.weight, Nat.add_sub_cancel] at hle
    simp only [lowerUnary, hle e (Nat.le_refl _)]
  | binary left op right span =>
    simp only [Node.weight, Nat.add_sub_cancel] at hle
    have hleft := hle left (by omega)
    have hright := hle right (by omega)
    simp only [lowerBinary, hleft, hright]
  | group inner dims guides span =>
    simp only [Node.weight, Nat.add_sub_cancel] at hle
    have hinner := hle inner (by omega)
    have hmoved := hle _ (Node.weight_ungroup_le inner dims guides)
    have hdims : lowerDims p dims = lowerDims q dims := lowerDims_congr hle (by omega)
    simp only [lowerGroup, hinner, hmoved, hdims]
  | _ => rfl

theorem expressionWithin_of_le {n : Node} {depth : Nat} (h : n.weight ≤ depth) :
    expressionWithin depth n = expression n := by
  have hagree : ∀ d : Nat, ∀ n : Node, n.weight ≤ d → ∀ e, n.weight ≤ e →
      expressionWithin d n = expressionWithin e n := by
    intro d
    induction d with
    | zero =>
      intro n hn
      have := n.weight_pos
      omega
    | succ d ih =>
      intro n hn e he
      obtain ⟨e, rfl⟩ : ∃ k, e = k + 1 := ⟨e - 1, by have := n.weight_pos; omega⟩
      rw [expressionWithin, expressionWithin]
      exact lowerNode_congr fun m hm => ih m (by omega) e (by omega)
  exact hagree depth n h n.weight (Nat.le_refl _)

/-- `expression` lowers the parts of an expression by itself. -/
theorem expression_eq (n : Node) : expression n = lowerNode expression n := by
  obtain ⟨d, hd⟩ : ∃ d, n.weight = d + 1 := ⟨n.weight - 1, by have := n.weight_pos; omega⟩
  have hstep : expression n = lowerNode (expressionWithin d) n := by
    rw [expression, hd, expressionWithin]
  rw [hstep]
  exact lowerNode_congr fun m hm => expressionWithin_of_le (by omega)

/-! ## Statements -/

section
variable {p q : LowerStatement}

theorem lowerAll_congr {l : List Node} (h : ∀ n ∈ l, p n = q n) : lowerAll p l = lowerAll q l := by
  induction l with
  | nil => rfl
  | cons n rest ih =>
    have hn : p n = q n := h n (List.mem_cons_self ..)
    have hrest := ih fun m hm => h m (List.mem_cons_of_mem n hm)
    simp only [lowerAll, hn, hrest]

theorem lowerVariable_congr {v : Variable} (h : ∀ n, initializer? v = some n → p n = q n) :
    lowerVariable p v = lowerVariable q v := by
  unfold lowerVariable
  cases hv : initializer? v with
  | none => rfl
  | some n => simp only [h n hv]

theorem lowerBlock_congr {body : List Node} (h : ∀ n ∈ body, p n = q n) (dialect : Dialect)
    (span : Span) : lowerBlock p dialect body span = lowerBlock q dialect body span := by
  unfold lowerBlock lowerUnit
  rw [lowerAll_congr h]

theorem lowerFunction_congr {f : Function} (h : ∀ n ∈ f.body, p n = q n) (isGenerated : Bool) :
    lowerFunction p f isGenerated = lowerFunction q f isGenerated := by
  unfold lowerFunction lowerUnit
  rw [lowerAll_congr h]

theorem weight_initializer {v : Variable} {n : Node} (h : initializer? v = some n) :
    n.weight < v.weight := by
  obtain ⟨_, _, value, _, _, _, _⟩ := v
  cases value with
  | none => cases h
  | some value =>
    cases h
    simp only [Identifier.plain, Node.weight, Identifier.weight, Node.weights, Variable.weight,
      Node.optWeight]
    omega

theorem weight_le_of_mem_variables {v : Variable} {l : List Variable} (h : v ∈ l) :
    v.weight ≤ Variable.weights l := by
  induction l with
  | nil => cases h
  | cons w rest ih =>
    simp only [Variable.weights]
    rcases List.mem_cons.mp h with rfl | h
    · omega
    · have := ih h
      omega

theorem weight_le_of_mem_functions {f : Function} {l : List Function} (h : f ∈ l) :
    f.weight ≤ Function.weights l := by
  induction l with
  | nil => cases h
  | cons w rest ih =>
    simp only [Function.weights]
    rcases List.mem_cons.mp h with rfl | h
    · omega
    · have := ih h
      omega

theorem weight_body_lt {f : Function} {n : Node} (h : n ∈ f.body) : n.weight < f.weight := by
  have hn := Node.weight_le_weights h
  cases f
  simp only [Function.weight] at hn ⊢
  omega

theorem weight_member_lt {c : ClassDecl} {v : Variable} (h : v ∈ c.members) :
    v.weight < c.weight := by
  have hle := weight_le_of_mem_variables h
  cases c
  simp only [ClassDecl.weight] at hle ⊢
  omega

theorem weight_method_lt {c : ClassDecl} {f : Function} (h : f ∈ c.methods) :
    f.weight < c.weight := by
  have hle := weight_le_of_mem_functions h
  cases c
  simp only [ClassDecl.weight] at hle ⊢
  omega

/-- The accessors of a member are no heavier than the member. -/
theorem weight_accessor_le {v : Variable} {n : Node}
    (h : n ∈ (getterOf v).body ∨ n ∈ (setterOf v).body) : n.weight ≤ v.weight := by
  have hv : 3 ≤ v.weight := by
    cases v
    simp only [Variable.weight]
    omega
  rcases h with h | h
  · rw [List.mem_singleton.mp h]
    simp only [bareName, Identifier.plain, Node.weight, Node.optWeight, Identifier.weight,
      Node.weights]
    omega
  · rw [List.mem_singleton.mp h]
    simp only [bareName, Identifier.plain, Node.assignment, Node.weight, Identifier.weight,
      Node.weights]
    omega

theorem weight_initializers_lt {c : ClassDecl} {keep : Variable → Bool} {n : Node}
    (h : n ∈ (c.members.filter keep).filterMap initializer?) : n.weight < c.weight := by
  obtain ⟨v, hv, hinit⟩ := List.mem_filterMap.mp h
  have hlt := weight_initializer hinit
  have hmem := weight_member_lt (List.mem_filter.mp hv).1
  omega

theorem weight_withInitializers_lt {c : ClassDecl} {keep : Variable → Bool} {f : Function} {n : Node}
    (hf : f ∈ c.methods)
    (h : n ∈ (withInitializers ((c.members.filter keep).filterMap initializer?) f).body) :
    n.weight < c.weight := by
  have hbody : n ∈ f.body → n.weight < c.weight := by
    intro hn
    have hlt := weight_body_lt hn
    have hmem := weight_method_lt hf
    omega
  unfold withInitializers at h
  split at h
  · rcases List.mem_append.mp h with h | h
    · exact weight_initializers_lt h
    · exact hbody h
  · exact hbody h

/-- The procedures of a class, made-up ones included, have bodies that are lighter than the class. -/
theorem lowerClass_congr {c : ClassDecl} (h : ∀ n : Node, n.weight < c.weight → p n = q n) :
    lowerClass p c = lowerClass q c := by
  have hfunction : ∀ (f : Function) (isGenerated : Bool), (∀ n ∈ f.body, n.weight < c.weight) →
      lowerFunction p f isGenerated = lowerFunction q f isGenerated :=
    fun f isGenerated hf => lowerFunction_congr (fun n hn => h n (hf n hn)) isGenerated
  have haccessors : ∀ v ∈ c.members.filter fun v => !v.isStatic,
      (do lowerFunction p (getterOf v) true; lowerFunction p (setterOf v) true) =
      (do lowerFunction q (getterOf v) true; lowerFunction q (setterOf v) true) := by
    intro v hv
    have hlt := weight_member_lt (List.mem_filter.mp hv).1
    rw [hfunction (getterOf v) true fun n hn =>
        Nat.lt_of_le_of_lt (weight_accessor_le (.inl hn)) hlt,
      hfunction (setterOf v) true fun n hn =>
        Nat.lt_of_le_of_lt (weight_accessor_le (.inr hn)) hlt]
  have hstatic : ∀ f ∈ (staticInitializer? ((c.members.filter Variable.isStatic).filterMap
      initializer?)).toList, lowerFunction p f true = lowerFunction q f true := by
    intro f hf
    unfold staticInitializer? at hf
    split at hf
    · cases hf
    · rw [List.mem_singleton.mp hf]
      exact hfunction _ _ fun n hn => weight_initializers_lt hn
  have hmethods : ∀ f ∈ c.methods, lowerFunction p (withInitializers
        ((c.members.filter fun v => !v.isStatic).filterMap initializer?) f) false =
      lowerFunction q (withInitializers
        ((c.members.filter fun v => !v.isStatic).filterMap initializer?) f) false :=
    fun f hf => hfunction _ _ fun n hn => weight_withInitializers_lt hf hn
  have hdefault : lowerFunction p (defaultConstructor c.name
        ((c.members.filter fun v => !v.isStatic).filterMap initializer?)) true =
      lowerFunction q (defaultConstructor c.name
        ((c.members.filter fun v => !v.isStatic).filterMap initializer?)) true :=
    hfunction _ _ fun n hn => weight_initializers_lt hn
  unfold lowerClass lowerClassBody
  simp only [forM_congr haccessors, forM_congr hstatic, forM_congr hmethods, hdefault]

theorem lowerWhile_congr {body : List Node} (h : ∀ n ∈ body, p n = q n) (condition : Node)
    (span : Span) : lowerWhile p condition body span = lowerWhile q condition body span := by
  unfold lowerWhile
  rw [lowerAll_congr h]

theorem associativeStatement_congr {n : Node} (h : ∀ m : Node, m.weight < n.weight → p m = q m) :
    associativeStatement p n = associativeStatement q n := by
  unfold associativeStatement
  cases n with
  | varDecl v =>
    refine lowerVariable_congr fun m hm => h m ?_
    have := weight_initializer hm
    simp only [Node.weight]
    omega
  | function f =>
    refine lowerFunction_congr (fun m hm => h m ?_) false
    have := weight_body_lt hm
    simp only [Node.weight]
    omega
  | classDecl c =>
    have hc : lowerClass p c = lowerClass q c := by
      refine lowerClass_congr fun m hm => h m ?_
      simp only [Node.weight]
      omega
    simp only [lowerTopLevelClass, hc]
  | block dialect body span =>
    refine lowerBlock_congr (fun m hm => h m ?_) dialect span
    have := Node.weight_le_weights hm
    simp only [Node.weight]
    omega
  | _ => rfl

theorem imperativeStatement_congr {n : Node} (h : ∀ m : Node, m.weight < n.weight → p m = q m) :
    imperativeStatement p n = imperativeStatement q n := by
  unfold imperativeStatement
  cases n with
  | branch condition body otherwise span =>
    have hbody : lowerAll p body = lowerAll q body := by
      refine lowerAll_congr fun m hm => h m ?_
      have := Node.weight_le_weights hm
      simp only [Node.weight]
      omega
    have hotherwise : lowerAll p otherwise = lowerAll q otherwise := by
      refine lowerAll_congr fun m hm => h m ?_
      have := Node.weight_le_weights hm
      simp only [Node.weight]
      omega
    simp only [lowerIf, lowerIfElse, hbody, hotherwise]
  | loop condition body span =>
    refine congrArg plain (lowerWhile_congr (fun m hm => h m ?_) condition span)
    have := Node.weight_le_weights hm
    simp only [Node.weight]
    omega
  | varDecl v =>
    refine congrArg plain (lowerVariable_congr fun m hm => h m ?_)
    have := weight_initializer hm
    simp only [Node.weight]
    omega
  | function f =>
    refine congrArg plain (lowerFunction_congr (fun m hm => h m ?_) false)
    have := weight_body_lt hm
    simp only [Node.weight]
    omega
  | block dialect body span =>
    refine congrArg plain (lowerBlock_congr (fun m hm => h m ?_) dialect span)
    have := Node.weight_le_weights hm
    simp only [Node.weight]
    omega
  | _ => rfl

/-- A statement is lowered alike by callbacks that agree on its parts. -/
theorem lowerStatement_congr {n : Node} (h : ∀ m : Node, m.weight < n.weight → p m = q m) :
    lowerStatement p n = lowerStatement q n := by
  unfold lowerStatement
  simp only [associativeStatement_congr h, imperativeStatement_congr h]

end

theorem statementWithin_of_le {n : Node} {depth : Nat} (h : n.weight ≤ depth) :
    statementWithin depth n = statement n := by
  have hagree : ∀ d : Nat, ∀ n : Node, n.weight ≤ d → ∀ e, n.weight ≤ e →
      statementWithin d n = statementWithin e n := by
    intro d
    induction d with
    | zero =>
      intro n hn
      have := n.weight_pos
      omega
    | succ d ih =>
      intro n hn e he
      obtain ⟨e, rfl⟩ : ∃ k, e = k + 1 := ⟨e - 1, by have := n.weight_pos; omega⟩
      rw [statementWithin, statementWithin]
      exact lowerStatement_congr fun m hm => ih m (by omega) e (by omega)
  exact hagree depth n h n.weight (Nat.le_refl _)

/-- `statement` lowers the parts of a statement by itself. -/
theorem statement_eq (n : Node) : statement n = lowerStatement statement n := by
  obtain ⟨d, hd⟩ : ∃ d, n.weight = d + 1 := ⟨n.weight - 1, by have := n.weight_pos; omega⟩
  have hstep : statement n = lowerStatement (statementWithin d) n := by
    rw [statement, hd, statementWithin]
  rw [hstep]
  exact lowerStatement_congr fun m hm => statementWithin_of_le (by omega)

end Lowering

end Diglot
