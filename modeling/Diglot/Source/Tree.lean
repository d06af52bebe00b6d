import Diglot.Source.Modifier
import Diglot.Source.Operator
import Diglot.Source.Span

/-! # Syntax trees

A unit is a list of `Node`s. Expressions and statements share one type, because a statement found
where a value is expected is an error of lowering and not of the tree. Declarations that can also
occur outside a statement list (the methods and members of a class, the attributes of a function)
have structures of their own.

- `Node.span`, `Node.dims`, `Node.guides` read what most nodes carry.
- `Node.setSubscripts` replaces subscripts and guides where a node can carry them.
- `Node.dotted` joins segments into one chain, leftmost first.
-/

set_option autoImplicit false

namespace Diglot

/-- A replication guide: which of several lists a call walks in step, and whether to the longest. -/
structure Guide where
  value : Int
  longest : Bool
  deriving DecidableEq, Inhabited

/-- What kind of constant a literal writes down. -/
inductive LiteralKind where
  | int | double | bool | char | string | null
  deriving DecidableEq, Inhabited

/-- A written type: the name of a class or primitive, and a rank that is negative if arbitrary. -/
structure TypeName where
  name : String
  rank : Int
  deriving DecidableEq, Inhabited

/-- The type of a declaration that writes none. -/
def TypeName.var : TypeName := ⟨"var", 0⟩

mutual

/-- An expression or statement. -/
inductive Node where
  | identifier (ident : Identifier)
  | member (left right : Node) (op : Operator) (lastFactor : Bool) (span : Span)
  | call (call : Call)
  | literal (kind : LiteralKind) (source : String) (span : Span)
  | list (items dims : List Node) (guides : List Guide) (span : Span)
  | range (first last : Node) (step : Option Node) (span : Span)
  | unary (op : UnaryOperator) (operand : Node) (span : Span)
  | binary (left : Node) (op : Operator) (right : Node) (span : Span)
  | group (inner : Node) (dims : List Node) (guides : List Guide) (span : Span)
  | defaultArg (span : Span)
  | dynamic (span : Span)
  | assign (target value : Node) (span : Span)
  | ret (value : Option Node) (span : Span)
  | branch (condition : Node) (body otherwise : List Node) (span : Span)
  | loop (condition : Node) (body : List Node) (span : Span)
  | breakLoop (span : Span)
  | continueLoop (span : Span)
  | block (dialect : Dialect) (body : List Node) (span : Span)
  | function (definition : Function)
  | classDecl (declaration : ClassDecl)
  | varDecl (declaration : Variable)

/-- A name with the subscripts written behind it. -/
structure Identifier where
  name : String
  dims : List Node
  guides : List Guide
  span : Span

/-- A call with its arguments and the subscripts written behind it. -/
structure Call where
  name : String
  args : List Node
  dims : List Node
  guides : List Guide
  span : Span

/-- A parameter of a function. -/
structure Parameter where
  name : String
  type : TypeName
  default : Option Node
  span : Span

/-- A function, method or constructor. -/
structure Function where
  name : String
  params : List Parameter
  returns : TypeName
  body : List Node
  attributes : List Call
  isStatic : Bool
  isConstructor : Bool
  access : Access
  span : Span

/-- A class with its member variables and methods. -/
structure ClassDecl where
  name : String
  base : Option String
  members : List Variable
  methods : List Function
  attributes : List Call
  span : Span

/-- A variable with its type and, maybe, a first value. -/
structure Variable where
  name : String
  type : TypeName
  value : Option Node
  isStatic : Bool
  access : Access
  region : Region
  span : Span

end

instance : Inhabited Node := ⟨.dynamic .nil⟩

/-- The name by which an object refers to itself. -/
def thisKeyword : String := "this"

/-- The name stands for the current object. -/
def Identifier.isThis (ident : Identifier) : Bool := ident.name == thisKeyword

/-- A bare name. -/
def Identifier.plain (name : String) (span : Span) : Identifier := ⟨name, [], [], span⟩

namespace Node

/-- Where the node stands in the source text. -/
def span : Node → Span
  | identifier i => i.span
  | member _ _ _ _ s => s
  | call c => c.span
  | literal _ _ s => s
  | list _ _ _ s => s
  | range _ _ _ s => s
  | unary _ _ s => s
  | binary _ _ _ s => s
  | group _ _ _ s => s
  | defaultArg s => s
  | dynamic s => s
  | assign _ _ s => s
  | ret _ s => s
  | branch _ _ _ s => s
  | loop _ _ s => s
  | breakLoop s => s
  | continueLoop s => s
  | block _ _ s => s
  | function f => f.span
  | classDecl c => c.span
  | varDecl v => v.span

/-- The subscripts written behind the node. -/
def dims : Node → List Node
  | identifier i => i.dims
  | call c => c.dims
  | list _ ds _ _ => ds
  | group _ ds _ _ => ds
  | _ => []

/-- The replication guides written behind the node. -/
def guides : Node → List Guide
  | identifier i => i.guides
  | call c => c.guides
  | list _ _ gs _ => gs
  | group _ _ gs _ => gs
  | _ => []

/-- The node with other subscripts and guides, if it is of a kind that can carry them. -/
def setSubscripts? (dims : List Node) (guides : List Guide) : Node → Option Node
  | identifier i => some (.identifier { i with dims, guides })
  | call c => some (.call { c with dims, guides })
  | list items _ _ s => some (.list items dims guides s)
  | group inner _ _ s => some (.group inner dims guides s)
  | _ => none

/-- The identifier that the node is, if it is one. -/
def asIdentifier? : Node → Option Identifier
  | identifier i => some i
  | _ => none

/-- The node is a string literal. -/
def isString : Node → Bool
  | literal .string _ _ => true
  | _ => false

/-- The node is a list literal. -/
def isList : Node → Bool
  | list .. => true
  | _ => false

/-- The node is a statement or declaration and has no value. -/
def isStatement : Node → Bool
  | assign .. | ret .. | branch .. | loop .. | breakLoop .. | continueLoop .. | block .. | function ..
  | classDecl .. | varDecl .. => true
  | _ => false

/-- Two segments joined by a dot, spanning both. -/
def join (left right : Node) : Node :=
  .member left right .dot false (left.span.join right.span)

/-- An assignment that spans both of its sides. -/
def assignment (target value : Node) : Node :=
  .assign target value (target.span.join value.span)

/-- The chain of the given segments, associated to the left; there is none without a segment. -/
def dotted : List Node → Option Node
  | [] => none
  | root :: rest => some (rest.foldl join root)

/-- The inside of a group. Subscripts or guides written behind the parentheses take the place of
those written inside, where the inside can carry any. -/
def ungroup (inner : Node) (dims : List Node) (guides : List Guide) : Node :=
  if dims.isEmpty && guides.isEmpty then inner else (inner.setSubscripts? dims guides).getD inner

end Node

end Diglot

/-! ## Chains

A chain `a.b.c` is a tree of `member` nodes. Lowering works on its segments from left to right,
whatever the association of the dots.

- `Node.segments` flattens a chain, and fails at a `member` node that is not joined by a dot.
- `Node.unwrap` takes the parentheses off a segment.
- `Node.reassemble` puts a split chain together again.
- `forwardNames` are the names that a unit gives a value somewhere at its top level.
-/

namespace Diglot

namespace Node

/-- The segments of a chain from left to right. The error is the span of the first `member` node
whose operator is not a dot. -/
def segments : Node → Except Span (List Node)
  | .member left right op _ span =>
    if op = .dot then
      match left.segments with
      | .error e => .error e
      | .ok ls =>
        match right.segments with
        | .error e => .error e
        | .ok rs => .ok (ls ++ rs)
    else .error span
  | node => .ok [node]

/-- Parentheses around a node of this kind are taken off a segment. -/
def isWrappable : Node → Bool
  | .identifier .. | .call .. | .group .. => true
  | _ => false

/-- The segment without its parentheses. The outermost layer that has subscripts or guides
decides which ones the inside carries. -/
def unwrap : Node → Node
  | .group inner dims guides span =>
    if inner.isWrappable then inner.unwrap.ungroup dims guides else .group inner dims guides span
  | node => node

/-- The chain of at least two segments. -/
def reassemble : List Node → Option Node
  | a :: b :: rest => dotted (a :: b :: rest)
  | _ => none

end Node

/-- The name that a statement gives a value, if the statement is a plain assignment or a
declaration. -/
def Node.assignedName? : Node → Option String
  | .assign (.identifier ident) _ _ => if ident.isThis then none else some ident.name
  | .varDecl declaration => some declaration.name
  | _ => none

/-- The names that the unit assigns or declares at its top level. They may be read before. -/
def forwardNames (unit : List Node) : List String := unit.filterMap Node.assignedName?

end Diglot
