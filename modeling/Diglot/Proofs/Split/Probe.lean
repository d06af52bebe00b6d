import Diglot.Lowering.Associative
import Diglot.Proofs.Split.Expression
import Diglot.Proofs.Course.Session

/-! # Where looking ahead halts

Looking ahead walks over an expression before it is lowered, and skips some of its parts. It never halts at
a sound expression, and at an orderly one always at the same issue, or never.
-/

set_option autoImplicit false

namespace Diglot.Lowering

namespace Outcome

variable {α : Type} {o p q : Option Issue}

/-! ## Probing -/

theorem declareForward (name : String) : Outcome (declareForward name) none := by
  refine andThen read fun _ => ite (andThen sight fun v => ite ?_ (pure _)) (pure _)
  exact andThen (allocate _) fun _ => pure _

section
variable {part : ProbePart}

theorem probeIdentifier {ident : Identifier} (hdims : Outcome (ident.dims.forM part) none) :
    Outcome (probeIdentifier part ident) none :=
  andThen hdims fun _ => ite (declareForward _) (pure _)

theorem probeChain {segments : List Node}
    (h : Outcome ((segments.map Node.unwrap).forM (probeSegment part (segments.length == 1))) o) :
    Outcome (probeChain part segments) o := onlyIf (defect _) h

section
variable (hsound : ∀ n, n.isSound = true → Outcome (part n) none)
include hsound

theorem probeAll {l : List Node} (h : Node.areSound l = true) : Outcome (l.forM part) none := by
  apply forM
  exact fun n hn => hsound n (Node.areSound_iff.mp h n hn)

theorem probeSegment {n : Node} (h : n.isSound = true) (isSingle : Bool) :
    Outcome (probeSegment part isSingle n) none := by
  unfold Lowering.probeSegment
  split
  · rw [Node.isSound_identifier] at h
    exact ite (probeIdentifier (probeAll hsound h)) (pure _)
  · rw [Node.isSound_call, Bool.and_eq_true] at h
    exact probeAll hsound h.1
  · exact pure _

theorem probeLinks {segments : List Node} (h : ∀ s ∈ segments, s.isSound = true) :
    Outcome (Lowering.probeChain part segments) none := by
  apply probeChain
  apply forM
  intro s hs
  obtain ⟨n, hn, rfl⟩ := List.mem_map.mp hs
  exact probeSegment hsound (Node.isSound_unwrap (h n hn)) _

theorem probeMember {left right : Node} {op : Operator} {lastFactor : Bool} {span : Span}
    (h : (Node.member left right op lastFactor span).isSound = true) :
    Outcome (do Lowering.probeChain part (← chainSegments (.member left right op lastFactor span))) none := by
  have hchain := Node.isChain_member_of_isSound h
  obtain ⟨root, rest, hsegments, hroot, hrest⟩ := Node.segments_of_isSound h hchain
  rw [chainSegments_ok hsegments, pure_bind]
  apply probeLinks hsound
  intro s hs
  obtain rfl | hs := List.mem_cons.mp hs
  · exact hroot.isSound
  · exact (hrest s hs).isSound

theorem probeNode {n : Node} (h : n.isSound = true) : Outcome (probeNode part n) none := by
  have hsingle : Outcome (Lowering.probeChain part [n]) none := by
    apply probeLinks hsound
    intro s hs
    rwa [List.mem_singleton.mp hs]
  unfold Lowering.probeNode
  cases n with
  | identifier => exact hsingle
  | call => exact hsingle
  | member => exact probeMember hsound h
  | list items dims =>
    simp only [Node.isSound, Bool.and_eq_true, Node.areSound_iff] at h
    apply forM
    intro n hn
    obtain hn | hn := List.mem_append.mp hn
    · exact hsound n (h.1 n hn)
    · exact hsound n (h.2 n hn)
  | range first last step =>
    simp only [Node.isSound, Bool.and_eq_true] at h
    refine andThen (hsound _ h.1.1) fun _ => andThen (hsound _ h.1.2) fun _ => forM fun n hn => ?_
    obtain rfl := Option.mem_toList.mp hn
    exact hsound n h.2
  | unary op operand => exact hsound operand h
  | binary left op right =>
    simp only [Node.isSound, Bool.and_eq_true, decide_eq_true_eq] at h
    dsimp only
    cases hopcode : OpCode.ofBinary? op with
    | none => cases op <;> first | exact absurd rfl h.1.1 | cases hopcode
    | some opcode => exact andThen (hsound _ h.1.2) fun _ => hsound _ h.2
  | group inner dims guides =>
    simp only [Node.isSound, Bool.and_eq_true] at h
    refine ite (hsound _ (Node.isSound_ungroup h.1 h.2 guides)) ?_
    exact andThen (hsound inner h.1) fun _ => probeAll hsound h.2
  | literal => exact pure _
  | defaultArg => exact pure _
  | dynamic => exact pure _
  | _ => cases h

variable (horderly : ∀ n, n.isOrderly = true → ∃ o, Outcome (part n) o)
include horderly

omit hsound in
theorem exists_probeAll {l : List Node} (h : Node.areOrderly l = true) : ∃ o, Outcome (l.forM part) o := by
  apply exists_forM
  exact fun n hn => horderly n (Node.areOrderly_iff.mp h n hn)

theorem exists_probeNode {n : Node} (h : n.isOrderly = true) :
    ∃ o, Outcome (Lowering.probeNode part n) o := by
  unfold Lowering.probeNode
  cases n with
  | identifier ident =>
    exact ⟨none, probeNode hsound (n := .identifier ident) h⟩
  | call call =>
    rw [Node.isOrderly_call, Bool.and_eq_true] at h
    obtain ⟨o, hargs⟩ := exists_probeAll horderly h.1
    refine ⟨o, probeChain ?_⟩
    exact last hargs fun _ => pure _
  | member left right op last span =>
    simp only [Node.isOrderly, Bool.or_eq_true] at h
    obtain h | h := h
    · exact ⟨none, probeMember hsound h⟩
    · exact ⟨_, stop (refuseChain (by simpa using h)) _⟩
  | list items dims =>
    simp only [Node.isOrderly, Bool.and_eq_true, Node.areOrderly_iff] at h
    apply exists_forM
    intro n hn
    obtain hn | hn := List.mem_append.mp hn
    · exact horderly n (h.1 n hn)
    · exact horderly n (h.2 n hn)
  | range first last step =>
    simp only [Node.isOrderly, Bool.and_eq_true] at h
    obtain ⟨o, hfirst⟩ := horderly first h.1.1
    obtain ⟨p, hlast⟩ := horderly last h.1.2
    obtain ⟨q, hstep⟩ := exists_forM (l := step.toList) (k := part) fun n hn => by
      obtain rfl := Option.mem_toList.mp hn
      exact horderly n h.2
    exact ⟨_, bind hfirst fun _ => bind hlast fun _ => hstep⟩
  | unary op operand => exact horderly operand h
  | binary left op right =>
    simp only [Node.isOrderly, Bool.and_eq_true] at h
    obtain ⟨o, hleft⟩ := horderly left h.1
    obtain ⟨p, hright⟩ := horderly right h.2
    dsimp only
    split
    · exact ⟨_, halt _ _ _⟩
    · exact ⟨_, bind hleft fun _ => hright⟩
  | group inner dims guides =>
    have hmoved := Node.isOrderly_ungroup h
    simp only [Node.isOrderly, Bool.and_eq_true] at h
    dsimp only
    split
    · next hmovable => exact horderly _ (hmoved hmovable)
    · obtain ⟨o, hinner⟩ := horderly inner h.1.1
      obtain ⟨p, hdims⟩ := exists_probeAll horderly h.1.2
      exact ⟨_, bind hinner fun _ => hdims⟩
  | literal => exact ⟨none, pure _⟩
  | defaultArg => exact ⟨none, pure _⟩
  | dynamic => exact ⟨none, pure _⟩
  | _ => exact ⟨_, halt _ _ _⟩

end

end

theorem probeWithin (depth : Nat) {n : Node} (h : n.isSound = true) : Outcome (probeWithin depth n) none := by
  induction depth generalizing n with
  | zero => exact defect _
  | succ depth ih => exact probeNode (fun n hn => ih hn) h

theorem probe {n : Node} (h : n.isSound = true) : Outcome (probe n) none := probeWithin _ h

theorem exists_probe {n : Node} (h : n.isOrderly = true) : ∃ o, Outcome (Lowering.probe n) o := by
  have hwithin (depth : Nat) {n : Node} (h : n.isOrderly = true) :
      ∃ o, Outcome (Lowering.probeWithin depth n) o := by
    induction depth generalizing n with
    | zero => exact ⟨none, defect _⟩
    | succ depth ih => exact exists_probeNode (fun n hn => probeWithin depth hn) (fun n hn => ih hn) h
  exact hwithin _ h

end Outcome

end Diglot.Lowering

/-! ## Names that stand for nothing stop no expression

A name that is not bound, a member that is missing or hidden, a method of another arity, a receiver that is an
array, a literal that cannot be read: each is reported, null or a late-bound access takes its place, and lowering
goes on. Only the form of an expression can be a reason to halt. An expression of a sound form (`Node.isSound`)
is lowered and probed to the end in every state that is ready (`sound_expression_completes`).
-/

namespace Diglot

namespace Lowering

variable {α : Type} {w : Bool} {f : Frame} {s : State} {n : Node}

/-- A step that never halts finishes where it does not end in a defect. -/
theorem Outcome.completes {m : Lower α} (h : Outcome m none) (hsafe : Safe w f s (m f s)) :
    ∃ a t, m f s = .ok a t ∧ Ready w f t := by
  have hrun := h f s
  revert hrun hsafe
  cases m f s with
  | ok a t => exact fun ht _ => ⟨a, t, rfl, ht.1⟩
  | error e t =>
    cases e with
    | halt d =>
      intro _ hhalt
      cases hhalt
    | defect d => exact False.elim

/-- Unknown names never halt. An expression of a sound form halts neither in its normal pass nor when it is
probed, whatever the frame and the state are. Where the state is ready, both passes finish, and the state is
ready again. -/
theorem sound_expression_completes (hn : n.isSound = true) :
    (∀ (f : Frame) (s t : State) (d : Diagnostic),
      expression n f s ≠ .error (.halt d) t ∧ probe n f s ≠ .error (.halt d) t) ∧
    ∀ (w : Bool) (f : Frame) (s : State), Ready w f s →
      (∃ type t, expression n f s = .ok type t ∧ Ready w f t) ∧
        ∃ t, probe n f s = .ok () t ∧ Ready w f t := by
  have hexpression := Outcome.expression hn
  have hprobe := Outcome.probe hn
  refine ⟨fun f s t d => ⟨fun h => ?_, fun h => ?_⟩, fun w f s hr => ⟨?_, ?_⟩⟩
  · have hrun := hexpression f s
    rw [h] at hrun
    cases hrun
  · have hrun := hprobe f s
    rw [h] at hrun
    cases hrun
  · have hcourse := Composed.expression (w := w) (D := True) n f s fun _ => hr
    exact hexpression.completes (hcourse.safe trivial hr)
  · have hcourse := Composed.probe (w := w) (D := True) (P := Anything) n f s fun _ => hr
    obtain ⟨⟨⟩, t, hrun, ht⟩ := hprobe.completes (hcourse.safe trivial hr)
    exact ⟨t, hrun, ht⟩

/-- A chain that begins with an unknown name, with an unknown method and an unreadable number in its subscript. -/
def unknownNames : Node :=
  let subscript : Node := .literal .int "12a" .nil
  let method : Call := ⟨"missing", [.identifier (.plain "nothing" .nil)], [subscript], [], .nil⟩
  .member (.identifier (.plain "nothing" .nil)) (.call method) .dot false .nil

/-- Unknown names are lowered at the beginning of a unit. -/
theorem unknownNames_complete :
    unknownNames.isSound = true ∧ ∃ f s, Ready false f s ∧
      (∃ type t, expression unknownNames f s = .ok type t ∧ Ready false f t) ∧
        ∃ t, probe unknownNames f s = .ok () t ∧ Ready false f t := by
  have hsound : unknownNames.isSound = true := by decide
  have hready := ((Session.Used.fit (.new {})).unitStart [] .associative).1
  exact ⟨hsound, _, _, hready, (sound_expression_completes hsound).2 _ _ _ hready⟩

end Lowering

end Diglot
