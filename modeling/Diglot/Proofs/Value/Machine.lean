import Diglot.Code.Instruction

/-! # The machine that expressions run on

Code for an expression works on a stack and on two registers. What operands, operators, subscripts
and aggregates stand for is left open: a `Meaning` fixes it, and everything below holds for each of
them.

* `step` and `exec` run instructions; they fail where an instruction finds too few values.
* `Pushes code values` says that the code puts these values on top of any stack and leaves what lies
  below alone.
-/

set_option autoImplicit false

namespace Diglot.Value

variable {V : Type}

/-- What operands, operators, subscripts and aggregates stand for. -/
structure Meaning (V : Type) where
  operand : Operand → V
  unary : UnaryOperator → V → V
  binary : Operator → V → V → V
  /-- The element of a value behind some subscripts. -/
  element : V → List V → V
  array : List V → V
  string : List V → V
  /-- The range of a first value, a last value and a step. -/
  range : V → V → V → V

/-- The value behind subscripts, which may be none. -/
def Meaning.subscript (M : Meaning V) (x : V) : List V → V
  | [] => x
  | d :: dims => M.element x (d :: dims)

/-- A stack, its top first, and two registers. -/
structure Config (V : Type) where
  stack : List V
  ax : V
  bx : V

/-- The value of an operand that is pushed. -/
def Config.load (M : Meaning V) (c : Config V) : Operand → V
  | .register .ax => c.ax
  | .register .bx => c.bx
  | a => M.operand a

/-- The `n` values on top, the lowest first, and the stack below them. -/
def split? (n : Nat) (stack : List V) : Option (List V × List V) :=
  if n ≤ stack.length then some ((stack.take n).reverse, stack.drop n) else none

theorem split?_append (values stack : List V) :
    split? values.length (values.reverse ++ stack) = some (values, stack) := by
  have hlen : values.length ≤ (values.reverse ++ stack).length := by
    rw [List.length_append, List.length_reverse]
    omega
  rw [split?, if_pos hlen, List.take_left' List.length_reverse, List.drop_left' List.length_reverse,
    List.reverse_reverse]

/-! ## Instructions -/

/-- The operator with one operand that an opcode computes. -/
def unaryOf? : OpCode → Option UnaryOperator
  | .neg => some .neg
  | .not => some .not
  | .bitNot => some .bitNot
  | _ => none

/-- The operator with two operands that an opcode computes. -/
def binaryOf? : OpCode → Option Operator
  | .add => some .add
  | .sub => some .sub
  | .mul => some .mul
  | .div => some .div
  | .mod => some .mod
  | .eq => some .eq
  | .nq => some .nq
  | .gt => some .gt
  | .lt => some .lt
  | .ge => some .ge
  | .le => some .le
  | .and => some .and
  | .or => some .or
  | .bitAnd => some .bitAnd
  | .bitOr => some .bitOr
  | .bitXor => some .bitXor
  | _ => none

/-- Pushes an operand, after taking as many subscripts off the stack as the last operand says. -/
def stepPush (M : Meaning V) (i : Instruction) (c : Config V) : Option (Config V) :=
  match i.op1, i.op3 with
  | some a, some (.arrayDim n) =>
    match split? n c.stack with
    | some (dims, rest) => some { c with stack := M.subscript (c.load M a) dims :: rest }
    | none => none
  | _, _ => none

/-- Moves the top into a register. -/
def stepPop (i : Instruction) (c : Config V) : Option (Config V) :=
  match i.op1, c.stack with
  | some (.register .ax), x :: rest => some { c with stack := rest, ax := x }
  | some (.register .bx), x :: rest => some { c with stack := rest, bx := x }
  | _, _ => none

/-- Replaces a value and the subscripts above it by the element. -/
def stepIndex (M : Meaning V) (i : Instruction) (c : Config V) : Option (Config V) :=
  match i.op1 with
  | some (.arrayDim n) =>
    match split? n c.stack with
    | some (dims, x :: rest) => some { c with stack := M.subscript x dims :: rest }
    | _ => none
  | _ => none

/-- Replaces the values on top by one array or string. -/
def stepAlloca (M : Meaning V) (i : Instruction) (c : Config V) : Option (Config V) :=
  match i.op1, i.op2 with
  | some (.int n), some (.arrayPointer _) =>
    match split? n.toNat c.stack with
    | some (items, rest) => some { c with stack := M.array items :: rest }
    | none => none
  | some (.int n), some (.stringPointer _) =>
    match split? n.toNat c.stack with
    | some (items, rest) => some { c with stack := M.string items :: rest }
    | none => none
  | _, _ => none

/-- Replaces three values by a range. -/
def stepRange (M : Meaning V) (c : Config V) : Option (Config V) :=
  match c.stack with
  | step :: last :: first :: rest => some { c with stack := M.range first last step :: rest }
  | _ => none

/-- Rewrites the first register by an operator. -/
def stepOperator (M : Meaning V) (i : Instruction) (c : Config V) : Option (Config V) :=
  match i.op1, i.op2 with
  | some (.register .ax), none =>
    match unaryOf? i.opcode with
    | some op => some { c with ax := M.unary op c.ax }
    | none => none
  | some (.register .ax), some (.register .bx) =>
    match binaryOf? i.opcode with
    | some op => some { c with ax := M.binary op c.ax c.bx }
    | none => none
  | _, _ => none

/-- Runs one instruction. -/
def step (M : Meaning V) (i : Instruction) (c : Config V) : Option (Config V) :=
  match i.opcode with
  | .push => stepPush M i c
  | .pop => stepPop i c
  | .pushindex => stepIndex M i c
  | .alloca => stepAlloca M i c
  | .range => stepRange M c
  | _ => stepOperator M i c

/-- Runs instructions one after the other. -/
def exec (M : Meaning V) : List Instruction → Config V → Option (Config V)
  | [], c => some c
  | i :: rest, c => (step M i c).bind (exec M rest)

theorem exec_append (M : Meaning V) (first rest : List Instruction) (c : Config V) :
    exec M (first ++ rest) c = (exec M first c).bind (exec M rest) := by
  induction first generalizing c with
  | nil => rfl
  | cons i first ih =>
    rw [List.cons_append, exec, exec, Option.bind_assoc]
    congr 1
    funext d
    exact ih d

theorem exec_single (M : Meaning V) (i : Instruction) (c : Config V) :
    exec M [i] c = step M i c := by
  rw [exec]
  cases step M i c <;> rfl

/-! ## What one instruction does

Instructions are taken with any debug record: the machine does not look at it. -/

section
variable (M : Meaning V) (debug : Option DebugRecord) (values stack : List V) (ax bx : V)

theorem step_push {a : Operand} (ha : ∀ r, a ≠ .register r) (k : Operand) :
    step M { Instruction.ternary .push a k (.arrayDim values.length) with debug }
        ⟨values.reverse ++ stack, ax, bx⟩ =
      some ⟨M.subscript (M.operand a) values :: stack, ax, bx⟩ := by
  have hload : Config.load M ⟨values.reverse ++ stack, ax, bx⟩ a = M.operand a := by
    unfold Config.load
    split
    · exact absurd rfl (ha .ax)
    · exact absurd rfl (ha .bx)
    · rfl
  simp only [step, stepPush, Instruction.ternary, split?_append, hload]

theorem step_push_ax (k : Operand) :
    step M { Instruction.ternary .push (.register .ax) k (.arrayDim 0) with debug }
        ⟨stack, ax, bx⟩ = some ⟨ax :: stack, ax, bx⟩ := by
  simp [step, stepPush, Instruction.ternary, split?, Config.load, Meaning.subscript]

theorem step_pop_ax (k : Operand) (x : V) :
    step M { Instruction.binary .pop (.register .ax) k with debug } ⟨x :: stack, ax, bx⟩ =
      some ⟨stack, x, bx⟩ := rfl

theorem step_pop_bx (k : Operand) (x : V) :
    step M { Instruction.binary .pop (.register .bx) k with debug } ⟨x :: stack, ax, bx⟩ =
      some ⟨stack, ax, x⟩ := rfl

theorem step_pushindex (x : V) :
    step M { Instruction.unary .pushindex (.arrayDim values.length) with debug }
        ⟨values.reverse ++ x :: stack, ax, bx⟩ =
      some ⟨M.subscript x values :: stack, ax, bx⟩ := by
  simp only [step, stepIndex, Instruction.unary, split?_append]

theorem step_alloca_array (pointer : Nat) :
    step M { Instruction.binary .alloca (.int values.length) (.arrayPointer pointer) with debug }
        ⟨values.reverse ++ stack, ax, bx⟩ = some ⟨M.array values :: stack, ax, bx⟩ := by
  simp only [step, stepAlloca, Instruction.binary, Int.toNat_natCast, split?_append]

theorem step_alloca_string (pointer : Nat) :
    step M { Instruction.binary .alloca (.int values.length) (.stringPointer pointer) with debug }
        ⟨values.reverse ++ stack, ax, bx⟩ = some ⟨M.string values :: stack, ax, bx⟩ := by
  simp only [step, stepAlloca, Instruction.binary, Int.toNat_natCast, split?_append]

theorem step_range (first last delta : V) :
    step M { Instruction.bare .range with debug } ⟨delta :: last :: first :: stack, ax, bx⟩ =
      some ⟨M.range first last delta :: stack, ax, bx⟩ := rfl

theorem step_unary (op : UnaryOperator) :
    step M { Instruction.unary (.ofUnary op) (.register .ax) with debug } ⟨stack, ax, bx⟩ =
      some ⟨stack, M.unary op ax, bx⟩ := by
  cases op <;> rfl

theorem step_binary {op : Operator} {opcode : OpCode} (h : OpCode.ofBinary? op = some opcode) :
    step M { Instruction.binary opcode (.register .ax) (.register .bx) with debug }
        ⟨stack, ax, bx⟩ = some ⟨stack, M.binary op ax bx, bx⟩ := by
  cases op <;> cases h <;> rfl

end

/-! ## Code that pushes values -/

/-- Values that depend on the meaning of operands and operators only, the first one pushed first. -/
abbrev Denotation := (V : Type) → Meaning V → List V

/-- The code pushes values and leaves the stack below them alone, whatever they mean. -/
def Pushes (code : List Instruction) (values : Denotation) : Prop :=
  ∀ (V : Type) (M : Meaning V) (c : Config V),
    ∃ ax bx, exec M code c = some ⟨(values V M).reverse ++ c.stack, ax, bx⟩

namespace Pushes

variable {first second code : List Instruction} {a b values dims : Denotation}

theorem nil : Pushes [] fun _ _ => [] := fun _ _ c => ⟨c.ax, c.bx, rfl⟩

/-- One piece of code behind another pushes its values above those of the other. -/
theorem append (ha : Pushes first a) (hb : Pushes second b) :
    Pushes (first ++ second) fun V M => a V M ++ b V M := by
  intro V M c
  obtain ⟨ax, bx, hfirst⟩ := ha V M c
  obtain ⟨ax', bx', hsecond⟩ := hb V M ⟨(a V M).reverse ++ c.stack, ax, bx⟩
  refine ⟨ax', bx', ?_⟩
  rw [exec_append, hfirst, Option.bind_some, hsecond, List.reverse_append, List.append_assoc]

/-- An instruction behind code that pushes values turns them into one. -/
theorem fold {i : Instruction} {result : (V : Type) → Meaning V → V} (h : Pushes code values)
    (hi : ∀ (V : Type) (M : Meaning V) (stack : List V) (ax bx : V),
      step M i ⟨(values V M).reverse ++ stack, ax, bx⟩ = some ⟨result V M :: stack, ax, bx⟩) :
    Pushes (code ++ [i]) fun V M => [result V M] := by
  intro V M c
  obtain ⟨ax, bx, hcode⟩ := h V M c
  refine ⟨ax, bx, ?_⟩
  rw [exec_append, hcode, Option.bind_some, exec_single, hi]
  rfl

/-- A push takes the subscripts below it. -/
theorem push {n : Nat} (h : Pushes code dims) (hn : ∀ V M, (dims V M).length = n) {x : Operand}
    (hx : ∀ r, x ≠ .register r) (k : Operand) (debug : Option DebugRecord) :
    Pushes (code ++ [{ Instruction.ternary .push x k (.arrayDim n) with debug }])
      fun V M => [M.subscript (M.operand x) (dims V M)] := by
  refine h.fold fun V M stack ax bx => ?_
  rw [← hn V M]
  exact step_push M debug (dims V M) stack ax bx hx k

/-- Subscripts above a value are replaced together with it by the element. -/
theorem index {n : Nat} {x : (V : Type) → Meaning V → V} (h : Pushes code fun V M => x V M :: dims V M)
    (hn : ∀ V M, (dims V M).length = n) (debug : Option DebugRecord) :
    Pushes (code ++ [{ Instruction.unary .pushindex (.arrayDim n) with debug }])
      fun V M => [M.subscript (x V M) (dims V M)] := by
  refine h.fold fun V M stack ax bx => ?_
  rw [← hn V M, List.reverse_cons, List.append_assoc]
  exact step_pushindex M debug (dims V M) stack ax bx (x V M)

/-- The values of a list become one array. -/
theorem array {n : Nat} (h : Pushes code values) (hn : ∀ V M, (values V M).length = n)
    (pointer : Nat) (debug : Option DebugRecord) :
    Pushes (code ++ [{ Instruction.binary .alloca (.int n) (.arrayPointer pointer) with debug }])
      fun V M => [M.array (values V M)] := by
  refine h.fold fun V M stack ax bx => ?_
  rw [← hn V M]
  exact step_alloca_array M debug (values V M) stack ax bx pointer

/-- The characters of a string become one string. -/
theorem string {n : Nat} (h : Pushes code values) (hn : ∀ V M, (values V M).length = n)
    (pointer : Nat) (debug : Option DebugRecord) :
    Pushes (code ++ [{ Instruction.binary .alloca (.int n) (.stringPointer pointer) with debug }])
      fun V M => [M.string (values V M)] := by
  refine h.fold fun V M stack ax bx => ?_
  rw [← hn V M]
  exact step_alloca_string M debug (values V M) stack ax bx pointer

/-- Three values become a range. -/
theorem range {x y z : (V : Type) → Meaning V → V} (h : Pushes code fun V M => [x V M, y V M, z V M])
    (debug : Option DebugRecord) :
    Pushes (code ++ [{ Instruction.bare .range with debug }])
      fun V M => [M.range (x V M) (y V M) (z V M)] :=
  h.fold fun V M stack ax bx => step_range M debug stack ax bx (x V M) (y V M) (z V M)

/-- The operand of an operator goes through the first register. -/
theorem unary {x : (V : Type) → Meaning V → V} (h : Pushes code fun V M => [x V M])
    (op : UnaryOperator) (k k' : Operand) (debug₁ debug₂ debug₃ : Option DebugRecord) :
    Pushes (code ++ [{ Instruction.binary .pop (.register .ax) k with debug := debug₁ },
        { Instruction.unary (.ofUnary op) (.register .ax) with debug := debug₂ },
        { Instruction.ternary .push (.register .ax) k' (.arrayDim 0) with debug := debug₃ }])
      fun V M => [M.unary op (x V M)] := by
  intro V M c
  obtain ⟨ax, bx, hcode⟩ := h V M c
  refine ⟨M.unary op (x V M), bx, ?_⟩
  rw [exec_append, hcode, Option.bind_some, List.reverse_singleton, List.singleton_append]
  rw [exec, step_pop_ax, Option.bind_some, exec, step_unary, Option.bind_some, exec_single,
    step_push_ax]
  rfl

/-- The right operand goes through the second register and the left one through the first. -/
theorem binary {x y : (V : Type) → Meaning V → V} (h : Pushes code fun V M => [x V M, y V M])
    {op : Operator} {opcode : OpCode} (hop : OpCode.ofBinary? op = some opcode) (k k' : Operand)
    (debug₁ debug₂ debug₃ debug₄ : Option DebugRecord) :
    Pushes (code ++ [{ Instruction.binary .pop (.register .bx) k with debug := debug₁ },
        { Instruction.binary .pop (.register .ax) k with debug := debug₂ },
        { Instruction.binary opcode (.register .ax) (.register .bx) with debug := debug₃ },
        { Instruction.ternary .push (.register .ax) k' (.arrayDim 0) with debug := debug₄ }])
      fun V M => [M.binary op (x V M) (y V M)] := by
  intro V M c
  obtain ⟨ax, bx, hcode⟩ := h V M c
  refine ⟨M.binary op (x V M) (y V M), y V M, ?_⟩
  rw [exec_append, hcode, Option.bind_some]
  change exec M _ ⟨y V M :: x V M :: c.stack, ax, bx⟩ = _
  rw [exec, step_pop_bx, Option.bind_some, exec, step_pop_ax, Option.bind_some, exec,
    step_binary M _ _ _ _ hop, Option.bind_some, exec_single, step_push_ax]
  rfl

end Pushes

end Diglot.Value
