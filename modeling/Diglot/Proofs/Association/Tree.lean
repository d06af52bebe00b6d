import Diglot.Proofs.Depth

/-! # How the dots of a chain are associated

A chain `a.b.c` may be built as `(a.b).c` or as `a.(b.c)`: the trees differ, the segments do not.

* `Node.realign` associates the outermost chain of a tree to the left, and `Node.aligned` every chain in it. Two
  trees differ only in how dots are associated if they are the same when aligned.
* A chain that is not joined by dots alone is no list of segments, and stays as it is.
* What is read off a tree besides its shape is read off the aligned tree: its span, its subscripts and guides, its
  segments, and its weight.
-/

set_option autoImplicit false

namespace Diglot

namespace Node

/-- The tree with its outermost chain associated to the left. -/
def realign (n : Node) : Node :=
  match n, n.segments.toOption.bind dotted with
  | .member _ _ _ lastFactor span, some (.member left right op _ _) => .member left right op lastFactor span
  | _, _ => n

/-! ## Realigned chains -/

/-- A segment of a chain is no chain itself. -/
theorem segments_of_mem_segments {n m : Node} {l : List Node} (h : n.segments = .ok l) (hm : m ∈ l) :
    m.segments = .ok [m] := by
  fun_induction segments n generalizing l with
  | case1 | case2 | case4 => cases h
  | case3 left right lastFactor span ls hls rs hrs ihl ihr =>
    cases h
    rcases List.mem_append.mp hm with hm | hm
    · exact ihl hls hm
    · exact ihr hrs hm
  | case5 n hn =>
    cases h
    rw [List.mem_singleton.mp hm]
    cases n <;> first | rfl | exact absurd rfl (hn _ _ _ _ _)

theorem segments_of_sides {left right : Node} {ls rs : List Node} (hl : left.segments = .ok ls)
    (hr : right.segments = .ok rs) (lastFactor : Bool) (span : Span) :
    (Node.member left right .dot lastFactor span).segments = .ok (ls ++ rs) := by
  simp [segments, hl, hr]

theorem segments_foldl_join {root : Node} {l rest : List Node} (hroot : root.segments = .ok l)
    (hrest : ∀ m ∈ rest, m.segments = .ok [m]) : (rest.foldl join root).segments = .ok (l ++ rest) := by
  induction rest generalizing root l with
  | nil => simpa using hroot
  | cons m rest ih =>
    have hjoin : (root.join m).segments = .ok (l ++ [m]) :=
      segments_of_sides hroot (hrest m (List.mem_cons_self ..)) _ _
    simpa using ih hjoin fun k hk => hrest k (List.mem_cons_of_mem m hk)

/-- A chain weighs as much as its segments and the dots between them. -/
theorem weight_segments {n : Node} {l : List Node} (h : n.segments = .ok l) :
    n.weight + 1 = weights l + l.length := by
  fun_induction segments n generalizing l with
  | case1 | case2 | case4 => cases h
  | case3 left right lastFactor span ls hls rs hrs ihl ihr =>
    cases h
    have hl := ihl hls
    have hr := ihr hrs
    simp only [weight, weights_append, List.length_append]
    omega
  | case5 n hn =>
    cases h
    simp [weights]

/-- The segments of a `member` node are the segments on its left and those on its right. -/
theorem segments_member_ok {left right : Node} {op : Operator} {lastFactor : Bool} {span : Span} {l : List Node}
    (h : (Node.member left right op lastFactor span).segments = .ok l) :
    op = .dot ∧ ∃ ls rs, left.segments = .ok ls ∧ right.segments = .ok rs ∧ l = ls ++ rs := by
  by_cases hop : op = .dot
  · cases hl : left.segments <;> cases hr : right.segments <;> simp [segments, hop, hl, hr] at h
    exact ⟨hop, _, _, rfl, rfl, h.symm⟩
  · simp [segments, hop] at h

/-- Two lists of segments have at least two segments together, so that joining them makes a `member` node. -/
theorem dotted_append {ls rs : List Node} (hl : ls ≠ []) (hr : rs ≠ []) :
    ∃ left right span, dotted (ls ++ rs) = some (.member left right .dot false span) := by
  obtain ⟨root, ls, rfl⟩ := List.exists_cons_of_ne_nil hl
  obtain ⟨front, last, hrs⟩ : ∃ front last, ls ++ rs = front ++ [last] :=
    ⟨(ls ++ rs).dropLast, (ls ++ rs).getLast (by simp [hr]), (List.dropLast_concat_getLast (by simp [hr])).symm⟩
  refine ⟨front.foldl join root, last, (front.foldl join root).span.join last.span, ?_⟩
  rw [List.cons_append, dotted, hrs, List.foldl_append]
  rfl

/-- A chain that is joined by dots alone is made of its segments when it is realigned. -/
theorem realign_of_segments {left right : Node} {op : Operator} {lastFactor : Bool} {span : Span} {l : List Node}
    (h : (Node.member left right op lastFactor span).segments = .ok l) :
    ∃ a b span', dotted l = some (.member a b .dot false span') ∧
      (Node.member left right op lastFactor span).realign = .member a b .dot lastFactor span := by
  obtain ⟨-, ls, rs, hl, hr, rfl⟩ := segments_member_ok h
  obtain ⟨a, b, span', hdotted⟩ := dotted_append (segments_ne_nil hl) (segments_ne_nil hr)
  refine ⟨a, b, span', hdotted, ?_⟩
  simp [realign, h, Except.toOption, hdotted]

theorem realign_of_error {n : Node} {e : Span} (h : n.segments = .error e) : n.realign = n := by
  cases n <;> simp [realign, h, Except.toOption]

theorem segments_realign (n : Node) : n.realign.segments = n.segments := by
  cases hn : n.segments with
  | error e => rw [realign_of_error hn, hn]
  | ok l =>
    cases n with
    | member left right op lastFactor span =>
      obtain ⟨a, b, span', hdotted, hrealign⟩ := realign_of_segments hn
      obtain ⟨root, rest, rfl⟩ := List.exists_cons_of_ne_nil (segments_ne_nil hn)
      have hsegments : (rest.foldl join root).segments = .ok ([root] ++ rest) :=
        segments_foldl_join (segments_of_mem_segments hn (List.mem_cons_self ..))
          fun m hm => segments_of_mem_segments hn (List.mem_cons_of_mem root hm)
      rw [Option.some.inj hdotted] at hsegments
      rw [hrealign]
      exact hsegments
    | _ => exact hn

theorem weight_realign (n : Node) : n.realign.weight = n.weight := by
  cases hn : n.segments with
  | error e => rw [realign_of_error hn]
  | ok l =>
    have hrealign := weight_segments ((segments_realign n).trans hn)
    have hweight := weight_segments hn
    omega

end Node

mutual

/-- The tree with all of its chains associated to the left. -/
def Node.aligned : Node → Node
  | .identifier ident => .identifier ident.aligned
  | .member left right op lastFactor span =>
    (Node.member left.aligned right.aligned op lastFactor span).realign
  | .call c => .call c.aligned
  | .literal kind source span => .literal kind source span
  | .list items dims guides span => .list (Node.alignedAll items) (Node.alignedAll dims) guides span
  | .range first last step span => .range first.aligned last.aligned (Node.alignedPart step) span
  | .unary op operand span => .unary op operand.aligned span
  | .binary left op right span => .binary left.aligned op right.aligned span
  | .group inner dims guides span => .group inner.aligned (Node.alignedAll dims) guides span
  | .defaultArg span => .defaultArg span
  | .dynamic span => .dynamic span
  | .assign target value span => .assign target.aligned value.aligned span
  | .ret value span => .ret (Node.alignedPart value) span
  | .branch condition body otherwise span =>
    .branch condition.aligned (Node.alignedAll body) (Node.alignedAll otherwise) span
  | .loop condition body span => .loop condition.aligned (Node.alignedAll body) span
  | .breakLoop span => .breakLoop span
  | .continueLoop span => .continueLoop span
  | .block dialect body span => .block dialect (Node.alignedAll body) span
  | .function f => .function f.aligned
  | .classDecl c => .classDecl c.aligned
  | .varDecl v => .varDecl v.aligned

/-- The trees of a list, aligned. -/
def Node.alignedAll : List Node → List Node
  | [] => []
  | n :: rest => n.aligned :: Node.alignedAll rest

/-- A part that may be missing, aligned. -/
def Node.alignedPart : Option Node → Option Node
  | none => none
  | some n => some n.aligned

/-- The identifier with its subscripts aligned. -/
def Identifier.aligned : Identifier → Identifier
  | ⟨name, dims, guides, span⟩ => ⟨name, Node.alignedAll dims, guides, span⟩

/-- The call with its arguments and subscripts aligned. -/
def Call.aligned : Call → Call
  | ⟨name, args, dims, guides, span⟩ => ⟨name, Node.alignedAll args, Node.alignedAll dims, guides, span⟩

/-- The calls of a list, aligned. -/
def Call.alignedAll : List Call → List Call
  | [] => []
  | c :: rest => c.aligned :: Call.alignedAll rest

/-- The parameter with its default value aligned. -/
def Parameter.aligned : Parameter → Parameter
  | ⟨name, type, value, span⟩ => ⟨name, type, Node.alignedPart value, span⟩

/-- The parameters of a list, aligned. -/
def Parameter.alignedAll : List Parameter → List Parameter
  | [] => []
  | p :: rest => p.aligned :: Parameter.alignedAll rest

/-- The function with its body, its attributes and its parameters aligned. -/
def Function.aligned : Function → Function
  | ⟨name, params, returns, body, attributes, isStatic, isConstructor, access, span⟩ =>
    ⟨name, Parameter.alignedAll params, returns, Node.alignedAll body, Call.alignedAll attributes, isStatic,
      isConstructor, access, span⟩

/-- The functions of a list, aligned. -/
def Function.alignedAll : List Function → List Function
  | [] => []
  | f :: rest => f.aligned :: Function.alignedAll rest

/-- The class with its members, its methods and its attributes aligned. -/
def ClassDecl.aligned : ClassDecl → ClassDecl
  | ⟨name, base, members, methods, attributes, span⟩ =>
    ⟨name, base, Variable.alignedAll members, Function.alignedAll methods, Call.alignedAll attributes, span⟩

/-- The variable with its first value aligned. -/
def Variable.aligned : Variable → Variable
  | ⟨name, type, value, isStatic, access, region, span⟩ =>
    ⟨name, type, Node.alignedPart value, isStatic, access, region, span⟩

/-- The variables of a list, aligned. -/
def Variable.alignedAll : List Variable → List Variable
  | [] => []
  | v :: rest => v.aligned :: Variable.alignedAll rest

end

/-! ## Weights -/

mutual

theorem Node.weight_aligned : (n : Node) → n.aligned.weight = n.weight
  | .identifier i => Identifier.weight_aligned i
  | .member left right op lastFactor span => by
    simp only [Node.aligned, Node.weight_realign, Node.weight, Node.weight_aligned left, Node.weight_aligned right]
  | .call c => Call.weight_aligned c
  | .literal .. => rfl
  | .list items dims _ _ => by
    simp only [Node.aligned, Node.weight, Node.weights_aligned items, Node.weights_aligned dims]
  | .range first last step _ => by
    simp only [Node.aligned, Node.weight, Node.weight_aligned first, Node.weight_aligned last,
      Node.optWeight_aligned step]
  | .unary _ operand _ => by simp only [Node.aligned, Node.weight, Node.weight_aligned operand]
  | .binary left _ right _ => by
    simp only [Node.aligned, Node.weight, Node.weight_aligned left, Node.weight_aligned right]
  | .group inner dims _ _ => by
    simp only [Node.aligned, Node.weight, Node.weight_aligned inner, Node.weights_aligned dims]
  | .defaultArg _ => rfl
  | .dynamic _ => rfl
  | .assign target value _ => by
    simp only [Node.aligned, Node.weight, Node.weight_aligned target, Node.weight_aligned value]
  | .ret value _ => by simp only [Node.aligned, Node.weight, Node.optWeight_aligned value]
  | .branch condition body otherwise _ => by
    simp only [Node.aligned, Node.weight, Node.weight_aligned condition, Node.weights_aligned body,
      Node.weights_aligned otherwise]
  | .loop condition body _ => by
    simp only [Node.aligned, Node.weight, Node.weight_aligned condition, Node.weights_aligned body]
  | .breakLoop _ => rfl
  | .continueLoop _ => rfl
  | .block _ body _ => by simp only [Node.aligned, Node.weight, Node.weights_aligned body]
  | .function f => by simp only [Node.aligned, Node.weight, Function.weight_aligned f]
  | .classDecl c => by simp only [Node.aligned, Node.weight, ClassDecl.weight_aligned c]
  | .varDecl v => by simp only [Node.aligned, Node.weight, Variable.weight_aligned v]

theorem Node.weights_aligned : (l : List Node) → Node.weights (Node.alignedAll l) = Node.weights l
  | [] => rfl
  | n :: rest => by
    simp only [Node.alignedAll, Node.weights, Node.weight_aligned n, Node.weights_aligned rest]

theorem Node.optWeight_aligned : (n : Option Node) → Node.optWeight (Node.alignedPart n) = Node.optWeight n
  | none => rfl
  | some n => Node.weight_aligned n

theorem Identifier.weight_aligned : (i : Identifier) → i.aligned.weight = i.weight
  | ⟨_, dims, _, _⟩ => by simp only [Identifier.aligned, Identifier.weight, Node.weights_aligned dims]

theorem Call.weight_aligned : (c : Call) → c.aligned.weight = c.weight
  | ⟨_, args, dims, _, _⟩ => by
    simp only [Call.aligned, Call.weight, Node.weights_aligned args, Node.weights_aligned dims]

theorem Call.weights_aligned : (l : List Call) → Call.weights (Call.alignedAll l) = Call.weights l
  | [] => rfl
  | c :: rest => by
    simp only [Call.alignedAll, Call.weights, Call.weight_aligned c, Call.weights_aligned rest]

theorem Parameter.weight_aligned : (p : Parameter) → p.aligned.weight = p.weight
  | ⟨_, _, value, _⟩ => by simp only [Parameter.aligned, Parameter.weight, Node.optWeight_aligned value]

theorem Parameter.weights_aligned : (l : List Parameter) → Parameter.weights (Parameter.alignedAll l) = Parameter.weights l
  | [] => rfl
  | p :: rest => by
    simp only [Parameter.alignedAll, Parameter.weights, Parameter.weight_aligned p, Parameter.weights_aligned rest]

theorem Function.weight_aligned : (f : Function) → f.aligned.weight = f.weight
  | ⟨_, params, _, body, attributes, _, _, _, _⟩ => by
    simp only [Function.aligned, Function.weight, Parameter.weights_aligned params, Node.weights_aligned body,
      Call.weights_aligned attributes]

theorem Function.weights_aligned : (l : List Function) → Function.weights (Function.alignedAll l) = Function.weights l
  | [] => rfl
  | f :: rest => by
    simp only [Function.alignedAll, Function.weights, Function.weight_aligned f, Function.weights_aligned rest]

theorem ClassDecl.weight_aligned : (c : ClassDecl) → c.aligned.weight = c.weight
  | ⟨_, _, members, methods, attributes, _⟩ => by
    simp only [ClassDecl.aligned, ClassDecl.weight, Variable.weights_aligned members,
      Function.weights_aligned methods, Call.weights_aligned attributes]

theorem Variable.weight_aligned : (v : Variable) → v.aligned.weight = v.weight
  | ⟨_, _, value, _, _, _, _⟩ => by simp only [Variable.aligned, Variable.weight, Node.optWeight_aligned value]

theorem Variable.weights_aligned : (l : List Variable) → Variable.weights (Variable.alignedAll l) = Variable.weights l
  | [] => rfl
  | v :: rest => by
    simp only [Variable.alignedAll, Variable.weights, Variable.weight_aligned v, Variable.weights_aligned rest]

end

/-! ## Lists -/

@[simp] theorem Node.alignedAll_eq (l : List Node) : Node.alignedAll l = l.map Node.aligned := by
  induction l with
  | nil => rfl
  | cons n rest ih => simp [Node.alignedAll, ih]

@[simp] theorem Node.alignedPart_eq (n : Option Node) : Node.alignedPart n = n.map Node.aligned := by
  cases n <;> rfl

@[simp] theorem Call.alignedAll_eq (l : List Call) : Call.alignedAll l = l.map Call.aligned := by
  induction l with
  | nil => rfl
  | cons c rest ih => simp [Call.alignedAll, ih]

@[simp] theorem Parameter.alignedAll_eq (l : List Parameter) : Parameter.alignedAll l = l.map Parameter.aligned := by
  induction l with
  | nil => rfl
  | cons p rest ih => simp [Parameter.alignedAll, ih]

@[simp] theorem Function.alignedAll_eq (l : List Function) : Function.alignedAll l = l.map Function.aligned := by
  induction l with
  | nil => rfl
  | cons f rest ih => simp [Function.alignedAll, ih]

@[simp] theorem Variable.alignedAll_eq (l : List Variable) : Variable.alignedAll l = l.map Variable.aligned := by
  induction l with
  | nil => rfl
  | cons v rest ih => simp [Variable.alignedAll, ih]

/-! ## The declarations and names in a tree -/

theorem Identifier.aligned_eq (i : Identifier) : i.aligned = { i with dims := i.dims.map Node.aligned } := by
  cases i
  simp [Identifier.aligned]

theorem Call.aligned_eq (c : Call) :
    c.aligned = { c with args := c.args.map Node.aligned, dims := c.dims.map Node.aligned } := by
  cases c
  simp [Call.aligned]

theorem Parameter.aligned_eq (p : Parameter) : p.aligned = { p with default := p.default.map Node.aligned } := by
  cases p
  simp [Parameter.aligned]

theorem Function.aligned_eq (f : Function) :
    f.aligned = { f with
      params := f.params.map Parameter.aligned
      body := f.body.map Node.aligned
      attributes := f.attributes.map Call.aligned } := by
  cases f
  simp [Function.aligned]

theorem ClassDecl.aligned_eq (c : ClassDecl) :
    c.aligned = { c with
      members := c.members.map Variable.aligned
      methods := c.methods.map Function.aligned
      attributes := c.attributes.map Call.aligned } := by
  cases c
  simp [ClassDecl.aligned]

theorem Variable.aligned_eq (v : Variable) : v.aligned = { v with value := v.value.map Node.aligned } := by
  cases v
  simp [Variable.aligned]

namespace Node

/-! ## Aligned chains -/

/-- What is aligned is of the same kind: a `member` node stays one, with its flag and its span. -/
theorem aligned_member (left right : Node) (op : Operator) (lastFactor : Bool) (span : Span) :
    ∃ a b o, (Node.member left right op lastFactor span).aligned = .member a b o lastFactor span := by
  rw [aligned]
  cases h : (Node.member left.aligned right.aligned op lastFactor span).segments with
  | error e => exact ⟨_, _, _, realign_of_error h⟩
  | ok l =>
    obtain ⟨a, b, _, -, hrealign⟩ := realign_of_segments h
    exact ⟨a, b, _, hrealign⟩

/-- The segments of an aligned chain are aligned, and a chain that is none stays none. -/
theorem segments_aligned (n : Node) : n.aligned.segments = n.segments.map (List.map aligned) := by
  fun_induction segments n with
  | case1 left right lastFactor span e hl ihl =>
    rw [aligned, segments_realign]
    simp [segments, ihl, hl, Except.map]
  | case2 left right lastFactor span ls hls e hr ihl ihr =>
    rw [aligned, segments_realign]
    simp [segments, ihl, hls, ihr, hr, Except.map]
  | case3 left right lastFactor span ls hls rs hrs ihl ihr =>
    rw [aligned, segments_realign]
    simp [segments, ihl, hls, ihr, hrs, Except.map]
  | case4 left right op lastFactor span hop =>
    rw [aligned, segments_realign]
    simp [segments, hop, Except.map]
  | case5 n hn => cases n <;> first | rfl | exact absurd rfl (hn _ _ _ _ _)

/-! ## What is read off a tree -/

section
variable (n : Node)

theorem span_aligned : n.aligned.span = n.span := by
  cases n with
  | member left right op lastFactor span =>
    obtain ⟨a, b, o, h⟩ := aligned_member left right op lastFactor span
    rw [h]
    rfl
  | identifier i => simp [aligned, span, i.aligned_eq]
  | call c => simp [aligned, span, c.aligned_eq]
  | function f => simp [aligned, span, f.aligned_eq]
  | classDecl c => simp [aligned, span, c.aligned_eq]
  | varDecl v => simp [aligned, span, v.aligned_eq]
  | _ => rfl

theorem dims_aligned : n.aligned.dims = n.dims.map aligned := by
  cases n with
  | member left right op lastFactor span =>
    obtain ⟨a, b, o, h⟩ := aligned_member left right op lastFactor span
    rw [h]
    rfl
  | identifier i => simp [aligned, dims, i.aligned_eq]
  | call c => simp [aligned, dims, c.aligned_eq]
  | list => simp [aligned, dims]
  | group => simp [aligned, dims]
  | _ => rfl

theorem guides_aligned : n.aligned.guides = n.guides := by
  cases n with
  | member left right op lastFactor span =>
    obtain ⟨a, b, o, h⟩ := aligned_member left right op lastFactor span
    rw [h]
    rfl
  | identifier i => simp [aligned, guides, i.aligned_eq]
  | call c => simp [aligned, guides, c.aligned_eq]
  | _ => rfl

theorem isWrappable_aligned : n.aligned.isWrappable = n.isWrappable := by
  cases n with
  | member left right op lastFactor span =>
    obtain ⟨a, b, o, h⟩ := aligned_member left right op lastFactor span
    rw [h]
    rfl
  | _ => rfl

theorem setSubscripts?_aligned (dims : List Node) (guides : List Guide) :
    n.aligned.setSubscripts? (dims.map aligned) guides = (n.setSubscripts? dims guides).map aligned := by
  cases n with
  | member left right op lastFactor span =>
    obtain ⟨a, b, o, h⟩ := aligned_member left right op lastFactor span
    rw [h]
    rfl
  | identifier i => simp [aligned, setSubscripts?, Identifier.aligned_eq]
  | call c => simp [aligned, setSubscripts?, Call.aligned_eq]
  | list => simp [aligned, setSubscripts?]
  | group => simp [aligned, setSubscripts?]
  | _ => rfl

theorem ungroup_aligned (dims : List Node) (guides : List Guide) :
    n.aligned.ungroup (dims.map aligned) guides = (n.ungroup dims guides).aligned := by
  unfold ungroup
  rw [setSubscripts?_aligned, List.isEmpty_map]
  split
  · rfl
  · cases n.setSubscripts? dims guides <;> rfl

theorem unwrap_aligned : n.aligned.unwrap = n.unwrap.aligned := by
  fun_induction unwrap n with
  | case1 inner dims guides span hinner ih =>
    rw [← ungroup_aligned, ← ih]
    simp [aligned, unwrap, isWrappable_aligned, hinner]
  | case2 inner dims guides span hinner => simp [aligned, unwrap, isWrappable_aligned, hinner]
  | case3 n hn =>
    cases n with
    | member left right op lastFactor span =>
      obtain ⟨a, b, o, h⟩ := aligned_member left right op lastFactor span
      rw [h]
      rfl
    | group => exact absurd rfl (hn _ _ _ _)
    | _ => rfl

end

end Node

end Diglot
