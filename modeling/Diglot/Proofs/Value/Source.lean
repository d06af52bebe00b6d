import Diglot.Lowering.Expression
import Diglot.Proofs.Value.Machine
import Diglot.Proofs.Sight

/-! # The value of an expression

Expressions without calls, dots and statements have a value once it is known through which operand
each name is read. The value says nothing about registers or stacks.

* `constant` is the operand that a literal with a single value stands for.
* `denote` is the value of an expression and `denoteAll` that of a list of them.
* `isPlain` tells whether an expression is one of those, and whether its names can be read.
-/

set_option autoImplicit false

namespace Diglot.Value

open Lowering

/-! ## Literals -/

/-- The constant that a literal stands for. A number that cannot be represented counts as zero, any
other word than `true` as false, and of a character literal the first character counts, which is
`NUL` if there is none. -/
def constant : LiteralKind → String → Operand
  | .int, source => .int ((Numeral.read source.toList).toOption.getD 0)
  | .double, source => .double ((Binary.Double.read source.toList).getD (.zero false))
  | .bool, source => .bool (source == "true")
  | .char, source => .char (source.toList.head?.getD '\x00')
  | .null, _ => .null
  | .string, _ => .null

theorem readInt_operand (source : String) : (readInt source).operand = constant .int source := by
  simp only [readInt, constant]
  split <;> rename_i h <;> rw [h] <;> rfl

theorem readDouble_operand (source : String) :
    (readDouble source).operand = constant .double source := by
  simp only [readDouble, constant]
  split <;> rename_i h <;> rw [h] <;> rfl

theorem readBool_operand (source : String) : (readBool source).operand = constant .bool source := by
  simp only [readBool, constant]
  split
  · next h => simp [h]
  · next h =>
    rw [beq_false_of_ne h]
    split <;> rfl

theorem readChar_operand (source : String) : (readChar source).operand = constant .char source := by
  simp only [readChar, constant]
  split <;> rename_i h <;> rw [h] <;> rfl

/-- Only a string has no single value, and the others are read as what they stand for. -/
theorem readLiteral?_eq {kind : LiteralKind} (h : kind ≠ .string) (source : String) :
    ∃ r, readLiteral? kind source = some r ∧ r.operand = constant kind source := by
  cases kind with
  | int => exact ⟨_, rfl, readInt_operand source⟩
  | double => exact ⟨_, rfl, readDouble_operand source⟩
  | bool => exact ⟨_, rfl, readBool_operand source⟩
  | char => exact ⟨_, rfl, readChar_operand source⟩
  | null => exact ⟨_, rfl, rfl⟩
  | string => exact absurd rfl h

theorem constant_ne_register (kind : LiteralKind) (source : String) (r : Register) :
    constant kind source ≠ .register r := by
  cases kind <;> exact fun h => Operand.noConfusion h

/-- The value of a literal. -/
def denoteLiteral {V : Type} (M : Meaning V) (kind : LiteralKind) (source : String) : V :=
  match kind with
  | .string => M.string (source.toList.map fun c => M.operand (.char c))
  | _ => M.operand (constant kind source)

/-! ## Expressions -/

/-- Through which operand a name is read, if it can be. -/
abbrev Names := String → Option Operand

section
variable {V : Type} (M : Meaning V) (names : Names)

mutual

/-- The value of an expression. -/
def denote : Node → V
  | .identifier i => denoteIdentifier i
  | .literal kind source _ => denoteLiteral M kind source
  | .list items dims _ _ => M.subscript (M.array (denoteAll items)) (denoteAll dims)
  | .range first last step _ => M.range (denote first) (denote last) (denoteStep step)
  | .unary op operand _ => M.unary op (denote operand)
  | .binary left op right _ => M.binary op (denote left) (denote right)
  | .group inner dims _ _ => M.subscript (denote inner) (denoteAll dims)
  | _ => M.operand .null

/-- The values of a list of expressions. -/
def denoteAll : List Node → List V
  | [] => []
  | n :: rest => denote n :: denoteAll rest

/-- The value of the step of a range; a range without one has a null step. -/
def denoteStep : Option Node → V
  | none => M.operand .null
  | some n => denote n

/-- The value of a variable, behind its subscripts. -/
def denoteIdentifier : Identifier → V
  | ⟨name, dims, _, _⟩ => M.subscript (M.operand ((names name).getD .null)) (denoteAll dims)

end

theorem length_denoteAll (nodes : List Node) : (denoteAll M names nodes).length = nodes.length := by
  induction nodes with
  | nil => rfl
  | cons n rest ih => rw [denoteAll, List.length_cons, ih, List.length_cons]

end

/-- The machine can count that many values. -/
def isCountable (n : Nat) : Bool := decide ((n : Int) ≤ Numeral.maxInt)

theorem clamp_of_isCountable {n : Nat} (h : isCountable n = true) : Operand.clamp n = n := by
  have hle : (n : Int) ≤ Numeral.maxInt := of_decide_eq_true h
  exact Int.min_eq_left hle

section
variable (names : Names)

mutual

/-- The expression consists of literals, names that can be read, operators other than the dot, lists,
ranges and groups, and no list or string in it is longer than the machine can count. -/
def isPlain : Node → Bool
  | .identifier i => isPlainIdentifier i
  | .literal .string source _ => isCountable source.toList.length
  | .literal .. => true
  | .list items dims _ _ => isCountable items.length && areAllPlain items && areAllPlain dims
  | .range first last step _ => isPlain first && isPlain last && isPlainStep step
  | .unary _ operand _ => isPlain operand
  | .binary left op right _ => op != .dot && isPlain left && isPlain right
  | .group inner dims _ _ => isPlain inner && areAllPlain dims
  | _ => false

/-- All expressions of a list are plain. -/
def areAllPlain : List Node → Bool
  | [] => true
  | n :: rest => isPlain n && areAllPlain rest

/-- The step of a range is plain or missing. -/
def isPlainStep : Option Node → Bool
  | none => true
  | some n => isPlain n

/-- The name can be read and its subscripts are plain. -/
def isPlainIdentifier : Identifier → Bool
  | ⟨name, dims, _, _⟩ => (names name).isSome && areAllPlain dims

end

theorem isPlain_of_mem {nodes : List Node} (h : areAllPlain names nodes = true) {n : Node}
    (hn : n ∈ nodes) : isPlain names n = true := by
  induction nodes with
  | nil => cases hn
  | cons m rest ih =>
    rw [areAllPlain, Bool.and_eq_true] at h
    rcases List.mem_cons.mp hn with rfl | hn
    · exact h.1
    · exact ih h.2 hn

end

/-! ## Subscripts that move

Subscripts behind parentheses move onto what stands inside, if it can carry some and has none. That
changes neither the value nor whether it is plain. -/

/-- What a movable inside that is plain looks like, and what it becomes. -/
theorem ungroup_cases {names : Names} {inner : Node} {dims : List Node}
    (hm : isMovable inner dims = true) (hp : isPlain names inner = true) (guides : List Guide) :
    (∃ name gs span, inner = .identifier ⟨name, [], gs, span⟩ ∧
      inner.ungroup dims guides = .identifier ⟨name, dims, guides, span⟩) ∨
    (∃ items gs span, inner = .list items [] gs span ∧
      inner.ungroup dims guides = .list items dims guides span) := by
  simp only [isMovable, Bool.and_eq_true, Bool.not_eq_true', List.isEmpty_iff] at hm
  obtain ⟨⟨hdims, hinner⟩, hkind⟩ := hm
  cases inner with
  | identifier i =>
    obtain ⟨name, ds, gs, span⟩ := i
    cases hinner
    exact .inl ⟨name, gs, span, rfl, by simp [Node.ungroup, hdims, Node.setSubscripts?]⟩
  | list items ds gs span =>
    cases hinner
    exact .inr ⟨items, gs, span, rfl, by simp [Node.ungroup, hdims, Node.setSubscripts?]⟩
  | call c => simp [isPlain] at hp
  | _ => cases hkind

theorem denote_ungroup {V : Type} (M : Meaning V) {names : Names} {inner : Node} {dims : List Node}
    (hm : isMovable inner dims = true) (hp : isPlain names inner = true) (guides guides' : List Guide)
    (span : Span) :
    denote M names (inner.ungroup dims guides) = denote M names (.group inner dims guides' span) := by
  obtain ⟨name, gs, span', rfl, h⟩ | ⟨items, gs, span', rfl, h⟩ := ungroup_cases hm hp guides
  · rw [h]
    simp only [denote, denoteIdentifier, denoteAll, Meaning.subscript]
  · rw [h]
    simp only [denote, denoteAll, Meaning.subscript]

theorem isPlain_ungroup {names : Names} {inner : Node} {dims : List Node}
    (hm : isMovable inner dims = true) (hp : isPlain names inner = true)
    (hd : areAllPlain names dims = true) (guides : List Guide) :
    isPlain names (inner.ungroup dims guides) = true := by
  obtain ⟨name, gs, span, rfl, h⟩ | ⟨items, gs, span, rfl, h⟩ := ungroup_cases hm hp guides
  · rw [h]
    simp only [isPlain, isPlainIdentifier, areAllPlain, Bool.and_true] at hp ⊢
    simp [hp, hd]
  · rw [h]
    simp only [isPlain, areAllPlain, Bool.and_true] at hp ⊢
    simp [hp, hd]

/-! ## Lowering that declares nothing

Lowering a plain expression only puts code behind the code that is there, and maybe lines into the
log, diagnostics, and dependencies of the current statement. No name changes its meaning on the way.

* `Grows` is what such a step does to the state.
* `Ready` is what it needs: places to put code, a statement that still takes dependencies, and names.
* `Yields m f s P` says that the step `m` finishes and that the code it emits satisfies `P`.
-/

/-- Code was put behind the code of a block, and no name changed its meaning. -/
structure Grows (block : Nat) (s t : State) (code : List Instruction) : Prop where
  stream : t.session.stream block = s.session.stream block ++ code.toArray
  names : s.session.SameNames t.session
  isSealed : t.node.isSealed = s.node.isSealed

theorem Grows.refl (block : Nat) (s : State) : Grows block s s [] :=
  ⟨by rw [Array.append_empty], .refl _, rfl⟩

theorem Grows.trans {block : Nat} {s t u : State} {first second : List Instruction}
    (h : Grows block s t first) (h' : Grows block t u second) :
    Grows block s u (first ++ second) := by
  refine ⟨?_, h.names.trans h'.names, h'.isSealed.trans h.isSealed⟩
  rw [h'.stream, h.stream, Array.append_assoc]
  simp

/-- Code of plain expressions can be emitted here, and names are read through these operands. -/
structure Ready (names : Names) (f : Frame) (s : State) : Prop where
  notGuided : f.isGuided = false
  notSealed : f.isTracked = true → s.node.isSealed = false
  sees : ∃ v, sight f s = .ok v s ∧ v.operand? = names

namespace Ready

variable {names : Names} {f : Frame} {s t : State} {code : List Instruction}

theorem canEmit (h : Ready names f s) : s.session.CanEmit f.block := by
  obtain ⟨v, hv, _⟩ := h.sees
  obtain ⟨_, _, hblocks, _⟩ := sight_eq_ok.mp hv
  exact .inr (Session.enclosing?_isSome hblocks)

/-- Steps that declare nothing leave things ready for the next one. -/
theorem grows (h : Ready names f s) (hg : Grows f.block s t code) : Ready names f t := by
  refine ⟨h.notGuided, fun ht => hg.isSealed.trans (h.notSealed ht), ?_⟩
  obtain ⟨v, hv, hnames⟩ := h.sees
  obtain ⟨_, heq, hblocks, hbody⟩ := sight_eq_ok.mp hv
  refine ⟨⟨t.session, f, v.blocks⟩, sight_eq_ok.mpr ⟨rfl, rfl, ?_, fun body hb => ?_⟩, ?_⟩
  · rw [hg.names.enclosing?_eq, hblocks]
  · rw [hg.names.block?_isSome]
    exact hbody body hb
  · rw [Sight.operand?_congr hg.names f v.blocks, ← heq, hnames]

end Ready

/-! ### Steps and the code they emit -/

/-- The step finishes, declares nothing, and emits code with the given property. -/
def Yields {α : Type} (m : Lower α) (f : Frame) (s : State) (P : List Instruction → Prop) : Prop :=
  ∃ a t code, m f s = .ok a t ∧ Grows f.block s t code ∧ P code

namespace Yields

variable {α β : Type} {f : Frame} {s : State} {P R : List Instruction → Prop}

theorem pure {a : α} (h : P []) : Yields (Pure.pure a : Lower α) f s P :=
  ⟨a, s, [], rfl, .refl _ _, h⟩

/-- The code of a second step goes behind that of the first. -/
theorem step {m : Lower α} {k : α → Lower β} {a : α} {t : State} {code : List Instruction}
    (hrun : m f s = .ok a t) (hg : Grows f.block s t code)
    (hk : Yields (k a) f t fun rest => R (code ++ rest)) : Yields (m >>= k) f s R := by
  obtain ⟨b, u, rest, hrun', hg', hR⟩ := hk
  refine ⟨b, u, code ++ rest, ?_, hg.trans hg', hR⟩
  rw [run_bind, hrun]
  exact hrun'

theorem bind {m : Lower α} {k : α → Lower β} (hm : Yields m f s P)
    (hk : ∀ a t code, Grows f.block s t code → P code →
      Yields (k a) f t fun rest => R (code ++ rest)) : Yields (m >>= k) f s R := by
  obtain ⟨a, t, code, hrun, hg, hP⟩ := hm
  exact step hrun hg (hk a t code hg hP)

/-- A step that emits nothing goes before one that does. -/
theorem silent {m : Lower α} {k : α → Lower β} {a : α} {t : State} (hrun : m f s = .ok a t)
    (hg : Grows f.block s t []) (hk : Yields (k a) f t R) : Yields (m >>= k) f s R :=
  step hrun hg hk

theorem ite {c : Prop} [Decidable c] {m n : Lower α} (hm : c → Yields m f s P)
    (hn : ¬ c → Yields n f s P) : Yields (if c then m else n) f s P := by
  by_cases hc : c
  · rw [if_pos hc]
    exact hm hc
  · rw [if_neg hc]
    exact hn hc

theorem mono {m : Lower α} (hm : Yields m f s P) (h : ∀ code, P code → R code) : Yields m f s R := by
  obtain ⟨a, t, code, hrun, hg, hP⟩ := hm
  exact ⟨a, t, code, hrun, hg, h code hP⟩

end Yields

theorem grows_emit {f : Frame} {s : State} (h : s.session.CanEmit f.block) (i : Instruction)
    (span : Span) :
    Grows f.block s
      { s with
        session := (s.session.noteEmission f (s.session.stream f.block).size i).emit f.block i span }
      [i] := by
  have hcan := (Session.canEmit_noteEmission f (s.session.stream f.block).size i).mpr h
  refine ⟨?_, ?_, rfl⟩
  · rw [Session.stream_emit hcan, Session.stream_noteEmission]
    simp
  · exact (Session.sameNames_noteEmission _ _ _ _).trans (Session.sameNames_emit _ _ _ _)

/-- A step that leaves the session alone but for its log and its diagnostics emits nothing. -/
theorem grows_nil {block : Nat} {s t : State} {log : Array LogRecord} {diagnostics : Diagnostics}
    (hs : t.session = { s.session with log, diagnostics })
    (hn : t.node.isSealed = s.node.isSealed) : Grows block s t [] := by
  refine ⟨?_, ?_, hn⟩
  · rw [hs, Array.append_empty]
    rfl
  · rw [hs]
    exact ⟨rfl, rfl, rfl, rfl, rfl, rfl⟩

theorem grows_report (block : Nat) (s : State) (d : Diagnostic) :
    Grows block s { s with session := s.session.report d } [] := grows_nil rfl rfl

section
variable {names : Names} {f : Frame} {s : State} (h : Ready names f s)
include h

theorem yields_emitWith (i : Instruction) (span : Span) (debug : Option DebugRecord) :
    Yields (emitWith i span debug) f s fun code => ∃ debug, code = [{ i with debug }] :=
  ⟨_, _, _, run_emitWith i span debug f s h.canEmit, grows_emit h.canEmit _ span, debug, rfl⟩

theorem yields_emit (i : Instruction) (span : Span) :
    Yields (emit i span) f s fun code => ∃ debug, code = [{ i with debug }] := by
  have hrun : emit i span f s =
      emitWith i span (debugRecord? s.session.options span [] (s.session.stream f.block).size) f s := by
    simp only [emit, emitStepping, run_bind, run_pc f s h.canEmit, run_getSession]
  obtain ⟨p, t, code, hrun', hg, hP⟩ := yields_emitWith h i span _
  exact ⟨p, t, code, hrun.trans hrun', hg, hP⟩

theorem yields_emitPush (a : Operand) (dims : Nat) (span : Span) :
    Yields (emitPush a dims span) f s fun code =>
      ∃ k debug, code = [{ Instruction.ternary .push a k (.arrayDim dims) with debug }] := by
  unfold emitPush
  refine .silent (run_classOperand f s) (.refl _ _) ?_
  refine (yields_emit h _ span).mono ?_
  rintro code ⟨debug, rfl⟩
  exact ⟨_, debug, rfl⟩

end

end Diglot.Value
