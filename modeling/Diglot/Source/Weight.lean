import Diglot.Source.Tree

/-! # Weight of a tree

`Node.weight` counts the nodes of a tree. Every node is heavier than each of its parts, and a
declaration is heavier than each statement that lowering makes of it. The weight bounds the depth
of every recursion over the tree.
-/

set_option autoImplicit false

namespace Diglot

mutual

/-- The number of nodes of a tree, with some slack for declarations. -/
def Node.weight : Node → Nat
  | .identifier i => i.weight
  | .member l r _ _ _ => l.weight + r.weight + 1
  | .call c => c.weight
  | .literal .. => 1
  | .list items dims _ _ => Node.weights items + Node.weights dims + 1
  | .range a b step _ => a.weight + b.weight + Node.optWeight step + 1
  | .unary _ e _ => e.weight + 1
  | .binary l _ r _ => l.weight + r.weight + 1
  | .group e dims _ _ => e.weight + Node.weights dims + 1
  | .defaultArg _ => 1
  | .dynamic _ => 1
  | .assign t v _ => t.weight + v.weight + 1
  | .ret v _ => Node.optWeight v + 1
  | .branch c body other _ => c.weight + Node.weights body + Node.weights other + 1
  | .loop c body _ => c.weight + Node.weights body + 1
  | .breakLoop _ => 1
  | .continueLoop _ => 1
  | .block _ body _ => Node.weights body + 1
  | .function f => f.weight + 1
  | .classDecl c => c.weight + 1
  | .varDecl v => v.weight + 1

/-- The sum over a list of nodes. -/
def Node.weights : List Node → Nat
  | [] => 0
  | n :: rest => n.weight + Node.weights rest

/-- The weight of a part that may be missing. -/
def Node.optWeight : Option Node → Nat
  | none => 0
  | some n => n.weight

/-- An identifier with its subscripts. -/
def Identifier.weight : Identifier → Nat
  | ⟨_, dims, _, _⟩ => Node.weights dims + 1

/-- A call with its arguments and subscripts. -/
def Call.weight : Call → Nat
  | ⟨_, args, dims, _, _⟩ => Node.weights args + Node.weights dims + 1

/-- The sum over a list of calls. -/
def Call.weights : List Call → Nat
  | [] => 0
  | c :: rest => c.weight + Call.weights rest

/-- A parameter with its default value. -/
def Parameter.weight : Parameter → Nat
  | ⟨_, _, value, _⟩ => Node.optWeight value + 1

/-- The sum over a list of parameters. -/
def Parameter.weights : List Parameter → Nat
  | [] => 0
  | p :: rest => p.weight + Parameter.weights rest

/-- A function with its body. -/
def Function.weight : Function → Nat
  | ⟨_, params, _, body, attributes, _, _, _, _⟩ =>
    Parameter.weights params + Node.weights body + Call.weights attributes + 1

/-- The sum over a list of functions. -/
def Function.weights : List Function → Nat
  | [] => 0
  | f :: rest => f.weight + Function.weights rest

/-- A class with its members and methods. -/
def ClassDecl.weight : ClassDecl → Nat
  | ⟨_, _, members, methods, attributes, _⟩ =>
    Variable.weights members + Function.weights methods + Call.weights attributes + 1

/-- A variable, counted with the assignment of its first value. -/
def Variable.weight : Variable → Nat
  | ⟨_, _, value, _, _, _, _⟩ => Node.optWeight value + 3

/-- The sum over a list of variables. -/
def Variable.weights : List Variable → Nat
  | [] => 0
  | v :: rest => v.weight + Variable.weights rest

end

namespace Node

theorem weight_pos (n : Node) : 0 < n.weight := by
  cases n with
  | identifier i => cases i; simp [weight, Identifier.weight]
  | call c => cases c; simp [weight, Call.weight]
  | _ => simp [weight]

/-- A node of a list is no heavier than the list. -/
theorem weight_le_weights {n : Node} {l : List Node} (h : n ∈ l) : n.weight ≤ weights l := by
  induction l with
  | nil => cases h
  | cons m rest ih =>
    rcases List.mem_cons.mp h with rfl | h
    · simp [weights]
    · have := ih h
      simp only [weights]
      omega

theorem weights_append (a b : List Node) : weights (a ++ b) = weights a + weights b := by
  induction a with
  | nil => simp [weights]
  | cons n rest ih => simp [weights, ih, Nat.add_assoc]

end Node

end Diglot
