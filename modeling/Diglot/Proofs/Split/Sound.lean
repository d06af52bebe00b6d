import Diglot.Proofs.Depth

/-! # Expressions that lowering does not halt at

* `Node.isSound`: nothing in the expression is a reason to halt, wherever it is met.
* `Node.isOrderly`: the chains of the tree, and the subscripts of its names, are sound. Of these lowering
  may skip parts, according to what the names stand for; whatever stands elsewhere in an expression is
  lowered in any case.
* `Node.IsLink`: a segment that is sound and of a kind that a chain can have.
-/

set_option autoImplicit false

namespace Diglot

open Lowering

namespace Node

/-- The node can follow a dot. -/
def isSegment : Node → Bool
  | identifier .. | call .. => true
  | _ => false

/-- The node is a name, with its subscripts. -/
def isName : Node → Bool
  | identifier _ => true
  | _ => false

/-- All segments are of a kind that a chain can have. Only a root may be a computed value. -/
def isChain (isRoot : Bool) : Node → Bool
  | member left right _ _ _ => left.isChain isRoot && right.isChain false
  | node => node.unwrap.isSegment || isRoot && isValueRoot node.unwrap

end Node

mutual

/-- Nothing in the expression is a reason to halt. -/
def Node.isSound : Node → Bool
  | .identifier i => i.isSound
  | .member left right op _ _ =>
    decide (op = .dot) && left.isSound && right.isSound && left.isChain true && right.isChain false
  | .call c => c.isSound
  | .list items dims _ _ => Node.areSound items && Node.areSound dims
  | .range first last step _ => first.isSound && last.isSound && Node.isSound? step
  | .unary _ operand _ => operand.isSound
  | .binary left op right _ => decide (op ≠ .dot) && left.isSound && right.isSound
  | .group inner dims _ _ => inner.isSound && Node.areSound dims
  | .literal .. => true
  | .defaultArg _ => true
  | .dynamic _ => true
  | _ => false

/-- All expressions of a list are sound. -/
def Node.areSound : List Node → Bool
  | [] => true
  | n :: rest => n.isSound && Node.areSound rest

/-- The part is missing or sound. -/
def Node.isSound? : Option Node → Bool
  | none => true
  | some n => n.isSound

/-- The subscripts are sound. -/
def Identifier.isSound : Identifier → Bool
  | ⟨_, dims, _, _⟩ => Node.areSound dims

/-- The arguments and subscripts are sound. -/
def Call.isSound : Call → Bool
  | ⟨_, args, dims, _, _⟩ => Node.areSound args && Node.areSound dims

end

mutual

/-- The chains of the tree and the subscripts of its names are sound. A chain that is not joined by dots
alone is refused as a whole. -/
def Node.isOrderly : Node → Bool
  | .identifier i => i.isSound
  | .member left right op last span =>
    (Node.member left right op last span).isSound ||
      !(Node.member left right op last span).segments.toBool
  | .call c => c.isOrderly
  | .literal .. => true
  | .list items dims _ _ => Node.areOrderly items && Node.areOrderly dims
  | .range first last step _ => first.isOrderly && last.isOrderly && Node.isOrderly? step
  | .unary _ operand _ => operand.isOrderly
  | .binary left _ right _ => left.isOrderly && right.isOrderly
  | .group inner dims _ _ =>
    inner.isOrderly && Node.areOrderly dims && (!inner.isName || Node.areSound dims)
  | .defaultArg _ => true
  | .dynamic _ => true
  | .assign target value _ => target.isOrderly && value.isOrderly
  | .ret value _ => Node.isOrderly? value
  | .branch condition body otherwise _ =>
    condition.isOrderly && Node.areOrderly body && Node.areOrderly otherwise
  | .loop condition body _ => condition.isOrderly && Node.areOrderly body
  | .breakLoop _ => true
  | .continueLoop _ => true
  | .block _ body _ => Node.areOrderly body
  | .function f => f.isOrderly
  | .classDecl c => c.isOrderly
  | .varDecl v => v.isOrderly

/-- All trees of a list are orderly. -/
def Node.areOrderly : List Node → Bool
  | [] => true
  | n :: rest => n.isOrderly && Node.areOrderly rest

/-- The part is missing or orderly. -/
def Node.isOrderly? : Option Node → Bool
  | none => true
  | some n => n.isOrderly

/-- The arguments and subscripts are orderly. -/
def Call.isOrderly : Call → Bool
  | ⟨_, args, dims, _, _⟩ => Node.areOrderly args && Node.areOrderly dims

/-- The body is orderly. -/
def Function.isOrderly : Function → Bool
  | ⟨_, _, _, body, _, _, _, _, _⟩ => Node.areOrderly body

/-- All bodies are orderly. -/
def Function.areOrderly : List Function → Bool
  | [] => true
  | f :: rest => f.isOrderly && Function.areOrderly rest

/-- The first values of the members and the bodies of the methods are orderly. -/
def ClassDecl.isOrderly : ClassDecl → Bool
  | ⟨_, _, members, methods, _, _⟩ => Variable.areOrderly members && Function.areOrderly methods

/-- The first value is orderly. -/
def Variable.isOrderly : Variable → Bool
  | ⟨_, _, value, _, _, _, _⟩ => Node.isOrderly? value

/-- All first values are orderly. -/
def Variable.areOrderly : List Variable → Bool
  | [] => true
  | v :: rest => v.isOrderly && Variable.areOrderly rest

end

/-! ## Parts of trees -/

theorem Node.isSound_identifier (i : Identifier) :
    (Node.identifier i).isSound = Node.areSound i.dims := by
  cases i
  rfl

theorem Node.isSound_call (c : Call) :
    (Node.call c).isSound = (Node.areSound c.args && Node.areSound c.dims) := by
  cases c
  rfl

theorem Node.isOrderly_call (c : Call) :
    (Node.call c).isOrderly = (Node.areOrderly c.args && Node.areOrderly c.dims) := by
  cases c
  rfl

theorem Function.isOrderly_eq (f : Function) : f.isOrderly = Node.areOrderly f.body := by
  cases f
  rfl

theorem ClassDecl.isOrderly_eq (c : ClassDecl) :
    c.isOrderly = (Variable.areOrderly c.members && Function.areOrderly c.methods) := by
  cases c
  rfl

theorem Variable.isOrderly_eq (v : Variable) : v.isOrderly = Node.isOrderly? v.value := by
  cases v
  rfl

/-! ## Lists of trees -/

theorem Node.areSound_iff {l : List Node} : Node.areSound l = true ↔ ∀ n ∈ l, n.isSound = true := by
  induction l with
  | nil => simp [Node.areSound]
  | cons n rest ih => simp [Node.areSound, ih]

theorem Node.areOrderly_iff {l : List Node} :
    Node.areOrderly l = true ↔ ∀ n ∈ l, n.isOrderly = true := by
  induction l with
  | nil => simp [Node.areOrderly]
  | cons n rest ih => simp [Node.areOrderly, ih]

theorem Function.areOrderly_iff {l : List Function} :
    Function.areOrderly l = true ↔ ∀ f ∈ l, f.isOrderly = true := by
  induction l with
  | nil => simp [Function.areOrderly]
  | cons f rest ih => simp [Function.areOrderly, ih]

theorem Variable.areOrderly_iff {l : List Variable} :
    Variable.areOrderly l = true ↔ ∀ v ∈ l, v.isOrderly = true := by
  induction l with
  | nil => simp [Variable.areOrderly]
  | cons v rest ih => simp [Variable.areOrderly, ih]

theorem Node.areOrderly_append {l r : List Node} (hl : Node.areOrderly l = true)
    (hr : Node.areOrderly r = true) : Node.areOrderly (l ++ r) = true := by
  rw [Node.areOrderly_iff] at hl hr ⊢
  intro n hn
  obtain hn | hn := List.mem_append.mp hn
  · exact hl n hn
  · exact hr n hn

namespace Node

/-! ## Groups -/

theorem isSound_ungroup {inner : Node} {dims : List Node} (h : inner.isSound = true)
    (hdims : areSound dims = true) (guides : List Guide) :
    (inner.ungroup dims guides).isSound = true := by
  unfold ungroup
  split
  · exact h
  · cases inner with
    | call c =>
      simp only [isSound_call, Bool.and_eq_true] at h
      simp [setSubscripts?, isSound_call, h.1, hdims]
    | list items =>
      simp only [isSound, Bool.and_eq_true] at h
      simp [setSubscripts?, isSound, h.1, hdims]
    | group inner =>
      simp only [isSound, Bool.and_eq_true] at h
      simp [setSubscripts?, isSound, h.1, hdims]
    | identifier => exact hdims
    | _ => exact h

/-- Subscripts that move onto the inside of a group leave it orderly. -/
theorem isOrderly_ungroup {inner : Node} {dims : List Node} {guides : List Guide} {span : Span}
    (h : (Node.group inner dims guides span).isOrderly = true) (hmovable : isMovable inner dims = true) :
    (inner.ungroup dims guides).isOrderly = true := by
  simp only [isOrderly, Bool.and_eq_true] at h
  obtain ⟨⟨hinner, hdims⟩, hname⟩ := h
  unfold ungroup
  split
  · exact hinner
  · cases inner with
    | call c =>
      simp only [isOrderly_call, Bool.and_eq_true] at hinner
      simp [setSubscripts?, isOrderly_call, hinner.1, hdims]
    | list items =>
      simp only [isOrderly, Bool.and_eq_true] at hinner
      simp [setSubscripts?, isOrderly, hinner.1, hdims]
    | identifier => exact hname
    | group => simp [isMovable] at hmovable
    | _ => exact hinner

theorem isSound_unwrap {n : Node} (h : n.isSound = true) : n.unwrap.isSound = true := by
  fun_induction unwrap n with
  | case1 inner dims guides span hwrap ih =>
    simp only [isSound, Bool.and_eq_true] at h
    exact isSound_ungroup (ih h.1) h.2 guides
  | case2 => exact h
  | case3 => exact h

/-! ## Chains -/

/-- The node is a sound segment, of a kind that a chain can have there. -/
structure IsLink (isRoot : Bool) (n : Node) : Prop where
  isSound : n.isSound = true
  kind : (n.unwrap.isSegment || isRoot && isValueRoot n.unwrap) = true

theorem IsLink.isChain {isRoot : Bool} {n : Node} (h : n.IsLink isRoot) : n.isChain isRoot = true := by
  cases n with
  | member => cases isRoot <;> exact absurd h.kind Bool.false_ne_true
  | _ => exact h.kind

theorem isChain_member_of_isSound {left right : Node} {op : Operator} {last : Bool} {span : Span}
    (h : (Node.member left right op last span).isSound = true) :
    (Node.member left right op last span).isChain true = true := by
  simp only [isSound, Bool.and_eq_true] at h
  simp [isChain, h.1.2, h.2]

/-- A chain that is sound has a root, and all its segments are links. -/
theorem segments_of_isSound {n : Node} {isRoot : Bool} (h : n.isSound = true)
    (hchain : n.isChain isRoot = true) :
    ∃ root rest, n.segments = .ok (root :: rest) ∧ root.IsLink isRoot ∧
      ∀ s ∈ rest, s.IsLink false := by
  fun_induction segments n generalizing isRoot with
  | case1 left right span last e he ihl =>
    simp only [isSound, isChain, Bool.and_eq_true] at h hchain
    obtain ⟨root, rest, hl, _⟩ := ihl h.1.1.1.2 hchain.1
    cases he.symm.trans hl
  | case2 left right span last ls hls e he ihl ihr =>
    simp only [isSound, isChain, Bool.and_eq_true] at h hchain
    obtain ⟨root, rest, hr, _⟩ := ihr h.1.1.2 hchain.2
    cases he.symm.trans hr
  | case3 left right span last ls hls rs hrs ihl ihr =>
    simp only [isSound, isChain, Bool.and_eq_true] at h hchain
    obtain ⟨root, rest, hl, hroot, hrest⟩ := ihl h.1.1.1.2 hchain.1
    obtain ⟨root', rest', hr, hroot', hrest'⟩ := ihr h.1.1.2 hchain.2
    cases hls.symm.trans hl
    cases hrs.symm.trans hr
    refine ⟨root, rest ++ root' :: rest', rfl, hroot, fun s hs => ?_⟩
    rcases List.mem_append.mp hs with hs | hs
    · exact hrest s hs
    · rcases List.mem_cons.mp hs with rfl | hs
      · exact hroot'
      · exact hrest' s hs
  | case4 left right op span last hop =>
    simp [isSound, hop] at h
  | case5 n hnot =>
    refine ⟨n, [], rfl, ⟨h, ?_⟩, fun s hs => absurd hs List.not_mem_nil⟩
    cases n with
    | member => exact absurd rfl (hnot _ _ _ _ _)
    | _ => exact hchain

/-- Links can be joined to a sound chain. -/
theorem isSound_member {left right : Node} (hleft : left.IsLink true) (hright : right.IsLink false)
    (last : Bool) (span : Span) : (Node.member left right .dot last span).isSound = true := by
  simp [isSound, hleft.isSound, hright.isSound, hleft.isChain, hright.isChain]

theorem isLink_plain (name : String) (span : Span) (isRoot : Bool) :
    (Node.identifier (.plain name span)).IsLink isRoot := ⟨rfl, rfl⟩

end Node

end Diglot
