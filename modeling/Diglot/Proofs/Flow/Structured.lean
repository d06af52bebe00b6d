import Diglot.Proofs.Flow.Machine

/-! # The control flow of the source

A `Flow` is a list of statements in which every piece without control flow of its own is annotated
with its fragment of the code: a condition, a return, or a plain statement. `Flow.source` forgets
the annotations.

`Flow.Runs` is the meaning of the source: `break` leaves the innermost loop around it, `continue`
goes back to its condition, and a return leaves everything. A fragment that is run contributes its
events.
-/

set_option autoImplicit false

namespace Diglot

/-- The statement changes where the program goes on. -/
def Node.isControl : Node → Bool
  | .branch .. | .loop .. | .breakLoop .. | .continueLoop .. | .ret .. => true
  | _ => false

/-- A stretch of code, up to but without its last place. -/
structure Fragment where
  first : Nat
  last : Nat

/-- The places of a fragment in the order in which they are run. -/
def Fragment.events (c : Fragment) : List Nat := List.range' c.first (c.last - c.first)

/-- Statements with the fragments of their pieces. -/
inductive Flow where
  | skip
  | seq (first rest : Flow)
  | plain (node : Node) (code : Fragment)
  | leave (value : Option Node) (span : Span) (code : Fragment)
  | branch (condition : Node) (test : Fragment) (body otherwise : Flow) (span : Span)
  | loop (condition : Node) (test : Fragment) (body : Flow) (span : Span)
  | breakLoop (span : Span)
  | continueLoop (span : Span)

namespace Flow

/-- The statements without the fragments. -/
def source : Flow → List Node
  | skip => []
  | seq first rest => first.source ++ rest.source
  | plain node _ => [node]
  | leave value span _ => [.ret value span]
  | branch condition _ body otherwise span => [.branch condition body.source otherwise.source span]
  | loop condition _ body span => [.loop condition body.source span]
  | breakLoop span => [.breakLoop span]
  | continueLoop span => [.continueLoop span]

/-- A run of statements on a list of outcomes: its trace, its ending, and the outcomes that are
left. -/
inductive Runs : Flow → List Bool → List Nat → Ending → List Bool → Prop where
  | skip (os : List Bool) : Runs skip os [] .done os
  | seq {x y : Flow} {os os' os'' : List Bool} {trace trace' : List Nat} {e : Ending} :
      Runs x os trace .done os' → Runs y os' trace' e os'' →
      Runs (seq x y) os (trace ++ trace') e os''
  | stop {x y : Flow} {os os' : List Bool} {trace : List Nat} {e : Ending} :
      Runs x os trace e os' → e ≠ .done → Runs (seq x y) os trace e os'
  | plain (node : Node) (code : Fragment) (os : List Bool) :
      Runs (plain node code) os code.events .done os
  | leave (value : Option Node) (span : Span) (code : Fragment) (os : List Bool) :
      Runs (leave value span code) os code.events .left os
  | breakLoop (span : Span) (os : List Bool) : Runs (breakLoop span) os [] .broke os
  | continueLoop (span : Span) (os : List Bool) : Runs (continueLoop span) os [] .continued os
  | branchStarved (condition : Node) (test : Fragment) (body otherwise : Flow) (span : Span) :
      Runs (branch condition test body otherwise span) [] test.events .starved []
  | branch {condition : Node} {test : Fragment} {body otherwise : Flow} {span : Span} {b : Bool}
      {os os' : List Bool} {trace : List Nat} {e : Ending} :
      Runs (if b then body else otherwise) os trace e os' →
      Runs (branch condition test body otherwise span) (b :: os) (test.events ++ trace) e os'
  | loopStarved (condition : Node) (test : Fragment) (body : Flow) (span : Span) :
      Runs (loop condition test body span) [] test.events .starved []
  | loopDone (condition : Node) (test : Fragment) (body : Flow) (span : Span) (os : List Bool) :
      Runs (loop condition test body span) (false :: os) test.events .done os
  | loopBroke {condition : Node} {test : Fragment} {body : Flow} {span : Span}
      {os os' : List Bool} {trace : List Nat} : Runs body os trace .broke os' →
      Runs (loop condition test body span) (true :: os) (test.events ++ trace) .done os'
  | loopStop {condition : Node} {test : Fragment} {body : Flow} {span : Span} {os os' : List Bool}
      {trace : List Nat} {e : Ending} : Runs body os trace e os' → e = .left ∨ e = .starved →
      Runs (loop condition test body span) (true :: os) (test.events ++ trace) e os'
  | loopNext {condition : Node} {test : Fragment} {body : Flow} {span : Span}
      {os os' os'' : List Bool} {trace trace' : List Nat} {e e' : Ending} :
      Runs body os trace e os' → e = .done ∨ e = .continued →
      Runs (loop condition test body span) os' trace' e' os'' →
      Runs (loop condition test body span) (true :: os) (test.events ++ trace ++ trace') e' os''

/-! ## Every list of outcomes has a run -/

theorem Runs.length_le {x : Flow} {os os' : List Bool} {trace : List Nat} {e : Ending}
    (h : Runs x os trace e os') : os'.length ≤ os.length := by
  induction h <;> grind

/-- A loop runs if its body does: every round consumes an outcome. -/
theorem Runs.exists_loop {body : Flow} (hbody : ∀ os, ∃ trace e os', Runs body os trace e os')
    (condition : Node) (test : Fragment) (span : Span) (os : List Bool) :
    ∃ trace e os', Runs (.loop condition test body span) os trace e os' := by
  induction hn : os.length using Nat.strongRecOn generalizing os with
  | ind n ih =>
    match os with
    | [] => exact ⟨_, _, _, .loopStarved ..⟩
    | false :: os => exact ⟨_, _, _, .loopDone ..⟩
    | true :: os =>
      obtain ⟨trace, e, os', hrun⟩ := hbody os
      have hle := hrun.length_le
      simp only [List.length_cons] at hn
      obtain ⟨trace', e', os'', hnext⟩ := ih os'.length (by omega) os' rfl
      cases e with
      | done => exact ⟨_, _, _, .loopNext hrun (.inl rfl) hnext⟩
      | continued => exact ⟨_, _, _, .loopNext hrun (.inr rfl) hnext⟩
      | broke => exact ⟨_, _, _, .loopBroke hrun⟩
      | left => exact ⟨_, _, _, .loopStop hrun (.inl rfl)⟩
      | starved => exact ⟨_, _, _, .loopStop hrun (.inr rfl)⟩

theorem Runs.exists (x : Flow) (os : List Bool) : ∃ trace e os', Runs x os trace e os' := by
  induction x generalizing os with
  | skip => exact ⟨_, _, _, .skip os⟩
  | seq x y ihx ihy =>
    obtain ⟨trace, e, os', hx⟩ := ihx os
    by_cases he : e = .done
    · subst he
      obtain ⟨trace', e', os'', hy⟩ := ihy os'
      exact ⟨_, _, _, .seq hx hy⟩
    · exact ⟨_, _, _, .stop hx he⟩
  | plain node code => exact ⟨_, _, _, .plain node code os⟩
  | leave value span code => exact ⟨_, _, _, .leave value span code os⟩
  | branch condition test body otherwise span ihb iho =>
    match os with
    | [] => exact ⟨_, _, _, .branchStarved ..⟩
    | true :: os =>
      obtain ⟨trace, e, os', h⟩ := ihb os
      exact ⟨_, _, _, .branch h⟩
    | false :: os =>
      obtain ⟨trace, e, os', h⟩ := iho os
      exact ⟨_, _, _, .branch h⟩
  | loop condition test body span ih => exact exists_loop ih condition test span os
  | breakLoop span => exact ⟨_, _, _, .breakLoop span os⟩
  | continueLoop span => exact ⟨_, _, _, .continueLoop span os⟩

/-! ## Code that follows the source -/

/-- Code from `first` on does what the source does, and goes on at `next` when the source is done,
at `brk` when it leaves the loop, and at `cont` when it goes on with the next round. -/
def Simulates (code : Array Instruction) (x : Flow) (first next brk cont : Nat) : Prop :=
  ∀ ⦃os trace e os'⦄, Runs x os trace e os' →
    Reaches code next brk cont ⟨first, os⟩ trace e os'

/-- The places of a fragment hold straight code. -/
def IsStraight (code : Array Instruction) (c : Fragment) : Prop :=
  c.first ≤ c.last ∧
    ∀ pc, c.first ≤ pc → pc < c.last → ∃ i, code[pc]? = some i ∧ i.opcode.IsStraight

variable {code : Array Instruction} {brk cont : Nat}

theorem IsStraight.steps {c : Fragment} (h : IsStraight code c) (os : List Bool) :
    Steps code ⟨c.first, os⟩ c.events ⟨c.last, os⟩ := Steps.straight os h.1 h.2

theorem simulates_skip (first : Nat) : Simulates code .skip first first brk cont := by
  intro os trace e os' h
  cases h
  exact .refl _

theorem simulates_seq {x y : Flow} {first middle last : Nat}
    (hx : Simulates code x first middle brk cont) (hy : Simulates code y middle last brk cont) :
    Simulates code (.seq x y) first last brk cont := by
  intro os trace e os' h
  cases h with
  | seq h h' => exact .after (hx h) (hy h')
  | stop h he =>
    have hr := hx h
    cases e with
    | done => exact absurd rfl he
    | _ => exact hr

theorem simulates_plain {node : Node} {c : Fragment} (h : IsStraight code c) :
    Simulates code (.plain node c) c.first c.last brk cont := by
  intro os trace e os' hrun
  cases hrun
  exact h.steps os

/-- A return is straight code up to its last instruction. -/
theorem simulates_leave {value : Option Node} {span : Span} {first last : Nat} {next : Nat}
    (h : IsStraight code ⟨first, last⟩) (hret : IsReturn code last) :
    Simulates code (.leave value span ⟨first, last + 1⟩) first next brk cont := by
  intro os trace e os' hrun
  cases hrun
  refine ⟨last, _, h.steps os, hret, ?_⟩
  have hle : first ≤ last := h.1
  simp only [Fragment.events]
  rw [Nat.succ_sub hle, List.range'_concat, Nat.one_mul, Nat.add_sub_cancel' hle]

theorem simulates_breakLoop {span : Span} {first next : Nat} {i : Instruction}
    (hi : code[first]? = some i) (hop : i.opcode = .jmp) (ht : i.op1 = some (.label (some brk))) :
    Simulates code (.breakLoop span) first next brk cont := by
  intro os trace e os' hrun
  cases hrun
  exact .single (.jmp hi hop ht)

theorem simulates_continueLoop {span : Span} {first next : Nat} {i : Instruction}
    (hi : code[first]? = some i) (hop : i.opcode = .jmp) (ht : i.op1 = some (.label (some cont))) :
    Simulates code (.continueLoop span) first next brk cont := by
  intro os trace e os' hrun
  cases hrun
  exact .single (.jmp hi hop ht)

/-- The instruction goes to one of two places, depending on the next outcome. -/
def Tests (code : Array Instruction) (pc holds fails : Nat) : Prop :=
  IsConditional code pc ∧
    ∀ b os, Steps code ⟨pc, b :: os⟩ [] ⟨if b then holds else fails, os⟩

theorem tests_jz {pc fails : Nat} {i : Instruction} (hi : code[pc]? = some i)
    (hop : i.opcode = .jz) (hr : i.op1 = some (.register .cx))
    (hf : i.op2 = some (.label (some fails))) : Tests code pc (pc + 1) fails :=
  ⟨⟨i, hi, .inr hop⟩, fun _ _ => .single (.jz hi hop hr hf)⟩

theorem tests_cjmp {pc holds fails : Nat} {i : Instruction} (hi : code[pc]? = some i)
    (hop : i.opcode = .cjmp) (hr : i.op1 = some (.register .cx))
    (hh : i.op2 = some (.label (some holds))) (hf : i.op3 = some (.label (some fails))) :
    Tests code pc holds fails :=
  ⟨⟨i, hi, .inl hop⟩, fun _ _ => .single (.cjmp hi hop hr hh hf)⟩

theorem simulates_branch {condition : Node} {test : Fragment} {body otherwise : Flow} {span : Span}
    {holds fails next : Nat} (htest : IsStraight code test)
    (hjump : Tests code test.last holds fails) (hb : Simulates code body holds next brk cont)
    (ho : Simulates code otherwise fails next brk cont) :
    Simulates code (.branch condition test body otherwise span) test.first next brk cont := by
  intro os trace e os' hrun
  cases hrun with
  | branchStarved => exact ⟨rfl, test.last, htest.steps [], hjump.1⟩
  | @branch _ _ _ _ _ b os _ trace _ h =>
    refine .after (htest.steps _) ?_
    refine Reaches.after (hjump.2 b os) ?_
    cases b with
    | true => exact hb h
    | false => exact ho h

/-- A stretch of code that is followed by a jump. -/
theorem Simulates.jump {x : Flow} {first next target : Nat}
    (h : Simulates code x first next brk cont)
    (hjump : ∀ os, Steps code ⟨next, os⟩ [] ⟨target, os⟩) :
    Simulates code x first target brk cont := by
  intro os trace e os' hrun
  have hr := h hrun
  cases e with
  | done =>
    have hs := Steps.trans hr (hjump os')
    rwa [List.append_nil] at hs
  | _ => exact hr

/-- The body of a loop goes back to the condition when it is done and when it goes on with the next
round, and behind the loop when it leaves it. -/
theorem simulates_loop {condition : Node} {test : Fragment} {body : Flow} {span : Span}
    {holds next : Nat} (htest : IsStraight code test) (hjump : Tests code test.last holds next)
    (hb : Simulates code body holds test.first next test.first) :
    Simulates code (.loop condition test body span) test.first next brk cont := by
  intro os trace e os' hrun
  have henter : ∀ os, Steps code ⟨test.first, true :: os⟩ test.events ⟨holds, os⟩ := by
    intro os
    have hs := (htest.steps (true :: os)).trans (hjump.2 true os)
    rwa [List.append_nil] at hs
  generalize hx : Flow.loop condition test body span = x at hrun
  induction hrun with
  | loopStarved =>
    cases hx
    exact ⟨rfl, test.last, htest.steps [], hjump.1⟩
  | loopDone _ _ _ _ os =>
    cases hx
    have hs := (htest.steps (false :: os)).trans (hjump.2 false os)
    rwa [List.append_nil] at hs
  | loopBroke h =>
    cases hx
    exact (henter _).trans (hb h)
  | loopStop h he =>
    cases hx
    refine .after (henter _) ?_
    have hr := hb h
    rcases he with rfl | rfl
    · exact hr
    · exact hr
  | loopNext h he _ _ ih =>
    cases hx
    refine .after ((henter _).trans ?_) (ih rfl)
    have hr := hb h
    rcases he with rfl | rfl
    · exact hr
    · exact hr
  | _ => cases hx

end Flow

end Diglot
