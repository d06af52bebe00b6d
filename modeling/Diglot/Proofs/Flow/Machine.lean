import Diglot.Proofs.Evolution.Steps

/-! # Running the control flow of code

The machine of this file knows nothing but control flow. A straight instruction is an event, and so
is the return that ends a run; of a jump only its targets matter. What the conditions yield is given
beforehand, as a list of outcomes that conditional jumps consume.

* `Step` and `Steps` are one step and any number of steps, with the places of the events.
* `Halts` runs code to its end: to the place behind the last instruction, to a return, or to a
  condition for which no outcome is left.
* `Reaches` is a run that ends in the middle of code, at the place that belongs to its ending.
-/

set_option autoImplicit false

namespace Diglot.Flow

/-- How a stretch of code or of source ends. -/
inductive Ending where
  /-- It is done and the next one follows. -/
  | done
  /-- It leaves the loop around it. -/
  | broke
  /-- It goes on with the next round of the loop around it. -/
  | continued
  /-- It leaves the block or the procedure. -/
  | left
  /-- It comes to a condition for which no outcome is left. -/
  | starved
  deriving DecidableEq

/-- Where a run stands: its place, and the outcomes of the conditions to come. -/
structure Control where
  pc : Nat
  outcomes : List Bool

/-- One step, and the places of its events. -/
inductive Step (code : Array Instruction) : Control → List Nat → Control → Prop where
  | straight {pc : Nat} {os : List Bool} {i : Instruction} : code[pc]? = some i →
      i.opcode.IsStraight → Step code ⟨pc, os⟩ [pc] ⟨pc + 1, os⟩
  | jmp {pc target : Nat} {os : List Bool} {i : Instruction} : code[pc]? = some i →
      i.opcode = .jmp → i.op1 = some (.label (some target)) → Step code ⟨pc, os⟩ [] ⟨target, os⟩
  | cjmp {pc holds fails : Nat} {b : Bool} {os : List Bool} {i : Instruction} :
      code[pc]? = some i → i.opcode = .cjmp → i.op1 = some (.register .cx) →
      i.op2 = some (.label (some holds)) → i.op3 = some (.label (some fails)) →
      Step code ⟨pc, b :: os⟩ [] ⟨if b then holds else fails, os⟩
  | jz {pc fails : Nat} {b : Bool} {os : List Bool} {i : Instruction} : code[pc]? = some i →
      i.opcode = .jz → i.op1 = some (.register .cx) → i.op2 = some (.label (some fails)) →
      Step code ⟨pc, b :: os⟩ [] ⟨if b then pc + 1 else fails, os⟩

/-- Any number of steps. -/
inductive Steps (code : Array Instruction) : Control → List Nat → Control → Prop where
  | refl (c : Control) : Steps code c [] c
  | head {c d e : Control} {events trace : List Nat} : Step code c events d →
      Steps code d trace e → Steps code c (events ++ trace) e

/-- The place holds a return. -/
def IsReturn (code : Array Instruction) (pc : Nat) : Prop :=
  ∃ i, code[pc]? = some i ∧ (i.opcode = .ret ∨ i.opcode = .retb)

/-- The place holds a jump on a condition. -/
def IsConditional (code : Array Instruction) (pc : Nat) : Prop :=
  ∃ i, code[pc]? = some i ∧ (i.opcode = .cjmp ∨ i.opcode = .jz)

/-- A run to the end of the code, with its trace, its ending and the outcomes that are left. -/
inductive Halts (code : Array Instruction) : Control → List Nat → Ending → List Bool → Prop where
  | done (os : List Bool) : Halts code ⟨code.size, os⟩ [] .done os
  | left {pc : Nat} (os : List Bool) : IsReturn code pc → Halts code ⟨pc, os⟩ [pc] .left os
  | starved {pc : Nat} : IsConditional code pc → Halts code ⟨pc, []⟩ [] .starved []
  | step {c d : Control} {events trace : List Nat} {e : Ending} {os : List Bool} :
      Step code c events d → Halts code d trace e os → Halts code c (events ++ trace) e os

variable {code : Array Instruction}

/-! ## Runs are determined by the outcomes -/

theorem not_isStraight_jmp : ¬ OpCode.jmp.IsStraight := by decide

theorem not_isStraight_cjmp : ¬ OpCode.cjmp.IsStraight := by decide

theorem not_isStraight_jz : ¬ OpCode.jz.IsStraight := by decide

theorem not_isStraight_of_return {op : OpCode} (h : op = .ret ∨ op = .retb) :
    ¬ op.IsStraight := by
  rcases h with rfl | rfl <;> decide

theorem Step.deterministic {c d d' : Control} {events events' : List Nat}
    (h : Step code c events d) (h' : Step code c events' d') : events = events' ∧ d = d' := by
  cases h <;> cases h' <;>
    grind [not_isStraight_jmp, not_isStraight_cjmp, not_isStraight_jz]

theorem Step.inside {c d : Control} {events : List Nat} (h : Step code c events d) :
    c.pc < code.size := by
  cases h with
  | straight hi => exact (Array.getElem?_eq_some_iff.mp hi).1
  | jmp hi => exact (Array.getElem?_eq_some_iff.mp hi).1
  | cjmp hi => exact (Array.getElem?_eq_some_iff.mp hi).1
  | jz hi => exact (Array.getElem?_eq_some_iff.mp hi).1

theorem IsReturn.inside {pc : Nat} (h : IsReturn code pc) : pc < code.size := by
  obtain ⟨i, hi, _⟩ := h
  exact (Array.getElem?_eq_some_iff.mp hi).1

theorem IsConditional.inside {pc : Nat} (h : IsConditional code pc) : pc < code.size := by
  obtain ⟨i, hi, _⟩ := h
  exact (Array.getElem?_eq_some_iff.mp hi).1

/-- No step is taken from a return. -/
theorem Step.not_return {c d : Control} {events : List Nat} (h : Step code c events d) :
    ¬ IsReturn code c.pc := by
  rintro ⟨i, hi, hop⟩
  have hstraight := not_isStraight_of_return hop
  cases h <;> grind

/-- A jump on a condition consumes an outcome. -/
theorem Step.not_conditional {pc : Nat} {d : Control} {events : List Nat}
    (h : Step code ⟨pc, []⟩ events d) : ¬ IsConditional code pc := by
  rintro ⟨i, hi, hop⟩
  cases h <;> grind [not_isStraight_cjmp, not_isStraight_jz]

/-- A place that is a return is no jump on a condition. -/
theorem IsReturn.not_conditional {pc : Nat} (h : IsReturn code pc) : ¬ IsConditional code pc := by
  obtain ⟨i, hi, hop⟩ := h
  rintro ⟨j, hj, hop'⟩
  grind

theorem Halts.deterministic {c : Control} {trace trace' : List Nat} {e e' : Ending}
    {os os' : List Bool} (h : Halts code c trace e os) (h' : Halts code c trace' e' os') :
    trace = trace' ∧ e = e' ∧ os = os' := by
  induction h generalizing trace' e' os' with
  | done os =>
    cases h' with
    | done => exact ⟨rfl, rfl, rfl⟩
    | left _ hr => exact absurd hr.inside (Nat.lt_irrefl _)
    | starved hc => exact absurd hc.inside (Nat.lt_irrefl _)
    | step hs _ => exact absurd hs.inside (Nat.lt_irrefl _)
  | left os hr =>
    cases h' with
    | done => exact absurd hr.inside (Nat.lt_irrefl _)
    | left => exact ⟨rfl, rfl, rfl⟩
    | starved hc => exact absurd hc hr.not_conditional
    | step hs _ => exact absurd hr hs.not_return
  | starved hc =>
    cases h' with
    | done => exact absurd hc.inside (Nat.lt_irrefl _)
    | left _ hr => exact absurd hc hr.not_conditional
    | starved => exact ⟨rfl, rfl, rfl⟩
    | step hs _ => exact absurd hc hs.not_conditional
  | step hs _ ih =>
    cases h' with
    | done => exact absurd hs.inside (Nat.lt_irrefl _)
    | left _ hr => exact absurd hr hs.not_return
    | starved hc => exact absurd hc hs.not_conditional
    | step hs' h' =>
      obtain ⟨rfl, rfl⟩ := hs.deterministic hs'
      obtain ⟨rfl, rfl, rfl⟩ := ih h'
      exact ⟨rfl, rfl, rfl⟩

/-! ## Composing runs -/

theorem Steps.trans {c d e : Control} {trace trace' : List Nat} (h : Steps code c trace d)
    (h' : Steps code d trace' e) : Steps code c (trace ++ trace') e := by
  induction h with
  | refl => exact h'
  | head hs _ ih =>
    rw [List.append_assoc]
    exact .head hs (ih h')

theorem Steps.single {c d : Control} {events : List Nat} (h : Step code c events d) :
    Steps code c events d := by
  have hs := Steps.head h (.refl d)
  rwa [List.append_nil] at hs

/-- A run that leaves the code ends at one place only. -/
theorem Steps.unique_outside {c : Control} {trace trace' : List Nat} {p q : Nat}
    {os os' : List Bool} (h : Steps code c trace ⟨p, os⟩) (h' : Steps code c trace' ⟨q, os'⟩)
    (hp : code.size ≤ p) (hq : code.size ≤ q) : p = q := by
  generalize hd : (⟨p, os⟩ : Control) = d at h
  generalize he : (⟨q, os'⟩ : Control) = e at h'
  induction h generalizing trace' e with
  | refl =>
    cases h' with
    | refl =>
      subst hd
      cases he
      rfl
    | head hs _ =>
      subst hd
      exact absurd hs.inside (Nat.not_lt.mpr hp)
  | head hs _ ih =>
    cases h' with
    | refl =>
      subst he
      exact absurd hs.inside (Nat.not_lt.mpr hq)
    | head hs' h' =>
      obtain ⟨-, rfl⟩ := hs.deterministic hs'
      exact ih hd e he h'

theorem Steps.halts {c d : Control} {trace trace' : List Nat} {e : Ending} {os : List Bool}
    (h : Steps code c trace d) (h' : Halts code d trace' e os) :
    Halts code c (trace ++ trace') e os := by
  induction h with
  | refl => exact h'
  | head hs _ ih =>
    rw [List.append_assoc]
    exact .step hs (ih h')

/-- Straight code runs from its first place to the one behind its last. -/
theorem Steps.straight {first last : Nat} (os : List Bool) (hle : first ≤ last)
    (h : ∀ pc, first ≤ pc → pc < last → ∃ i, code[pc]? = some i ∧ i.opcode.IsStraight) :
    Steps code ⟨first, os⟩ (List.range' first (last - first)) ⟨last, os⟩ := by
  obtain ⟨n, rfl⟩ := Nat.exists_eq_add_of_le hle
  rw [Nat.add_sub_cancel_left]
  induction n generalizing first with
  | zero => exact .refl _
  | succ n ih =>
    obtain ⟨i, hi, hop⟩ := h first (Nat.le_refl _) (by omega)
    have hrest : Steps code ⟨first + 1, os⟩ (List.range' (first + 1) n) ⟨first + 1 + n, os⟩ :=
      ih (by omega) fun pc hle hlt => h pc (by omega) (by omega)
    rw [show first + 1 + n = first + (n + 1) by omega] at hrest
    exact .head (.straight hi hop) hrest

/-- A run that ends inside code: done at `next`, out of the loop at `brk`, at the next round at
`cont`, at a return, or at a condition. -/
def Reaches (code : Array Instruction) (next brk cont : Nat) (c : Control) (trace : List Nat) :
    Ending → List Bool → Prop
  | .done, os => Steps code c trace ⟨next, os⟩
  | .broke, os => Steps code c trace ⟨brk, os⟩
  | .continued, os => Steps code c trace ⟨cont, os⟩
  | .left, os => ∃ pc before, Steps code c before ⟨pc, os⟩ ∧ IsReturn code pc ∧ trace = before ++ [pc]
  | .starved, os => os = [] ∧ ∃ pc, Steps code c trace ⟨pc, []⟩ ∧ IsConditional code pc

theorem Reaches.after {next brk cont : Nat} {c d : Control} {trace trace' : List Nat} {e : Ending}
    {os : List Bool} (h : Steps code c trace d) (h' : Reaches code next brk cont d trace' e os) :
    Reaches code next brk cont c (trace ++ trace') e os := by
  cases e with
  | done => exact h.trans h'
  | broke => exact h.trans h'
  | continued => exact h.trans h'
  | left =>
    obtain ⟨pc, before, hs, hr, rfl⟩ := h'
    exact ⟨pc, trace ++ before, h.trans hs, hr, (List.append_assoc ..).symm⟩
  | starved =>
    obtain ⟨rfl, pc, hs, hc⟩ := h'
    exact ⟨rfl, pc, h.trans hs, hc⟩

end Diglot.Flow
