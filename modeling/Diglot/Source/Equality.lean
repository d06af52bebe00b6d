import Diglot.Source.Tree

/-! # Equality of trees

Two trees are equal when all their parts are, spans included. The comparison recurses along the
tree, with one companion for each list of parts.
-/

set_option autoImplicit false

namespace Diglot

mutual

/-- Equality of nodes, part by part. -/
def Node.same : Node → Node → Bool
  | .identifier a, .identifier b => a.same b
  | .member l r op f s, .member l' r' op' f' s' =>
    l.same l' && r.same r' && op == op' && f == f' && s == s'
  | .call a, .call b => a.same b
  | .literal k v s, .literal k' v' s' => k == k' && v == v' && s == s'
  | .list i d g s, .list i' d' g' s' => Node.sames i i' && Node.sames d d' && g == g' && s == s'
  | .range a b t s, .range a' b' t' s' => a.same a' && b.same b' && Node.optSame t t' && s == s'
  | .unary op e s, .unary op' e' s' => op == op' && e.same e' && s == s'
  | .binary l op r s, .binary l' op' r' s' => l.same l' && op == op' && r.same r' && s == s'
  | .group e d g s, .group e' d' g' s' => e.same e' && Node.sames d d' && g == g' && s == s'
  | .defaultArg s, .defaultArg s' => s == s'
  | .dynamic s, .dynamic s' => s == s'
  | .assign t v s, .assign t' v' s' => t.same t' && v.same v' && s == s'
  | .ret v s, .ret v' s' => Node.optSame v v' && s == s'
  | .branch c b e s, .branch c' b' e' s' =>
    c.same c' && Node.sames b b' && Node.sames e e' && s == s'
  | .loop c b s, .loop c' b' s' => c.same c' && Node.sames b b' && s == s'
  | .breakLoop s, .breakLoop s' => s == s'
  | .continueLoop s, .continueLoop s' => s == s'
  | .block l b s, .block l' b' s' => l == l' && Node.sames b b' && s == s'
  | .function f, .function f' => f.same f'
  | .classDecl c, .classDecl c' => c.same c'
  | .varDecl v, .varDecl v' => v.same v'
  | _, _ => false

/-- Equality of lists of nodes. -/
def Node.sames : List Node → List Node → Bool
  | [], [] => true
  | a :: as, b :: bs => a.same b && Node.sames as bs
  | _, _ => false

/-- Equality of parts that may be missing. -/
def Node.optSame : Option Node → Option Node → Bool
  | none, none => true
  | some a, some b => a.same b
  | _, _ => false

/-- Equality of identifiers. -/
def Identifier.same : Identifier → Identifier → Bool
  | ⟨n, d, g, s⟩, ⟨n', d', g', s'⟩ => n == n' && Node.sames d d' && g == g' && s == s'

/-- Equality of calls. -/
def Call.same : Call → Call → Bool
  | ⟨n, a, d, g, s⟩, ⟨n', a', d', g', s'⟩ =>
    n == n' && Node.sames a a' && Node.sames d d' && g == g' && s == s'

/-- Equality of lists of calls. -/
def Call.sames : List Call → List Call → Bool
  | [], [] => true
  | a :: as, b :: bs => a.same b && Call.sames as bs
  | _, _ => false

/-- Equality of parameters. -/
def Parameter.same : Parameter → Parameter → Bool
  | ⟨n, t, v, s⟩, ⟨n', t', v', s'⟩ => n == n' && t == t' && Node.optSame v v' && s == s'

/-- Equality of lists of parameters. -/
def Parameter.sames : List Parameter → List Parameter → Bool
  | [], [] => true
  | a :: as, b :: bs => a.same b && Parameter.sames as bs
  | _, _ => false

/-- Equality of functions. -/
def Function.same : Function → Function → Bool
  | ⟨n, p, r, b, a, st, ct, ac, s⟩, ⟨n', p', r', b', a', st', ct', ac', s'⟩ =>
    n == n' && Parameter.sames p p' && r == r' && Node.sames b b' && Call.sames a a' &&
      st == st' && ct == ct' && ac == ac' && s == s'

/-- Equality of lists of functions. -/
def Function.sames : List Function → List Function → Bool
  | [], [] => true
  | a :: as, b :: bs => a.same b && Function.sames as bs
  | _, _ => false

/-- Equality of class declarations. -/
def ClassDecl.same : ClassDecl → ClassDecl → Bool
  | ⟨n, b, m, f, a, s⟩, ⟨n', b', m', f', a', s'⟩ =>
    n == n' && b == b' && Variable.sames m m' && Function.sames f f' && Call.sames a a' && s == s'

/-- Equality of variables. -/
def Variable.same : Variable → Variable → Bool
  | ⟨n, t, v, st, ac, r, s⟩, ⟨n', t', v', st', ac', r', s'⟩ =>
    n == n' && t == t' && Node.optSame v v' && st == st' && ac == ac' && r == r' && s == s'

/-- Equality of lists of variables. -/
def Variable.sames : List Variable → List Variable → Bool
  | [], [] => true
  | a :: as, b :: bs => a.same b && Variable.sames as bs
  | _, _ => false

end

instance : BEq Node := ⟨Node.same⟩

end Diglot
