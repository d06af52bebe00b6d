import Diglot.Graph.Node
import Diglot.Source.Span

/-! # Source locations of the code

A `DebugMap` tells where in the source an instruction comes from. It keeps one span for each
recorded place of the code, ordered by block and then by position; a later record of the same place
replaces the earlier one, and a span that points nowhere is not recorded.

- `DebugMap.byPc?` is the span of the last recorded instruction up to a place.
- `DebugMap.byNode?` is the span of the first recorded instruction of a dependency node.
-/

set_option autoImplicit false

namespace Diglot

/-- A place in the code and the span it comes from. -/
structure DebugEntry where
  block : Nat
  pc : Nat
  span : Span
  deriving DecidableEq, Inhabited

/-- Recorded places in increasing order. -/
structure DebugMap where
  entries : List DebugEntry := []
  deriving DecidableEq, Inhabited

namespace DebugMap

/-- Place `(b, p)` comes before `(b', p')`. -/
def before (b p b' p' : Nat) : Bool := decide (b < b') || (b == b' && decide (p < p'))

/-- Inserts an entry at its place; an entry of the same place gives way. -/
def insert (e : DebugEntry) : List DebugEntry → List DebugEntry
  | [] => [e]
  | f :: rest =>
    if before e.block e.pc f.block f.pc then e :: f :: rest
    else if e.block = f.block ∧ e.pc = f.pc then e :: rest
    else f :: insert e rest

/-- Records where an instruction comes from. -/
def record (m : DebugMap) (block pc : Nat) (span : Span) : DebugMap :=
  if span.isValid then ⟨insert ⟨block, pc, span⟩ m.entries⟩ else m

/-- The entries of a block between two places, both included, in increasing order. -/
def between (m : DebugMap) (block first last : Nat) : List DebugEntry :=
  m.entries.filter fun e => e.block == block && decide (first ≤ e.pc) && decide (e.pc ≤ last)

/-- The span recorded at exactly this place. -/
def get? (m : DebugMap) (block pc : Nat) : Option Span :=
  (m.entries.find? fun e => e.block == block && e.pc == pc).map DebugEntry.span

/-- The span of the last recorded place of the block up to this one. -/
def byPc? (m : DebugMap) (block pc : Nat) : Option Span :=
  (m.between block 0 pc).getLast?.map DebugEntry.span

/-- The span of the first recorded place inside the range of a node. -/
def byNode? (m : DebugMap) (n : GraphNode) : Option Span :=
  (m.between n.block n.startPc n.endPc).head?.map DebugEntry.span

/-- Where the machine is: in the running statement if statements are run one by one, or else at the
instruction. -/
def audit? (m : DebugMap) (block pc : Nat) (running : Option GraphNode) (delta : Bool) :
    Option Span :=
  match (if delta then running.bind m.byNode? else none) with
  | some span => some span
  | none => m.byPc? block pc

/-! ## What `record` does -/

theorem mem_insert {e f : DebugEntry} {l : List DebugEntry} (h : f ∈ insert e l) : f = e ∨ f ∈ l := by
  induction l with
  | nil => exact .inl (List.mem_singleton.mp h)
  | cons g rest ih =>
    unfold insert at h
    split at h
    · exact List.mem_cons.mp h
    split at h
    · rcases List.mem_cons.mp h with rfl | h
      · exact .inl rfl
      · exact .inr (List.mem_cons_of_mem g h)
    · rcases List.mem_cons.mp h with rfl | h
      · exact .inr (List.mem_cons_self ..)
      · exact (ih h).imp_right (List.mem_cons_of_mem g)

theorem find?_insert (e : DebugEntry) (block pc : Nat) (l : List DebugEntry) :
    (insert e l).find? (fun f => f.block == block && f.pc == pc) =
      if e.block = block ∧ e.pc = pc then some e
      else l.find? fun f => f.block == block && f.pc == pc := by
  have hcons (f : DebugEntry) (l : List DebugEntry) :
      (f :: l).find? (fun f => f.block == block && f.pc == pc) =
        if f.block = block ∧ f.pc = pc then some f
        else l.find? fun f => f.block == block && f.pc == pc := by
    by_cases h : f.block = block ∧ f.pc = pc
    · rw [List.find?_cons_of_pos (by simpa using h), if_pos h]
    · rw [List.find?_cons_of_neg (by simpa using h), if_neg h]
  induction l with
  | nil => exact hcons e []
  | cons f rest ih =>
    unfold insert
    split
    · exact hcons e (f :: rest)
    split
    · -- the entry in front gives way, and it is at the same place
      rename_i hsame
      rw [hcons, hcons, hsame.1, hsame.2]
      split <;> rfl
    · rename_i hother
      rw [hcons, hcons, ih]
      by_cases h : f.block = block ∧ f.pc = pc
      · have hne : ¬ (e.block = block ∧ e.pc = pc) := by
          rintro ⟨rfl, rfl⟩
          exact hother ⟨h.1.symm, h.2.symm⟩
        rw [if_pos h, if_neg hne, if_pos h]
      · rw [if_neg h, if_neg h]

/-- A record with a valid span is what is found at its place; nothing else changes. -/
theorem get?_record (m : DebugMap) (b p block pc : Nat) (span : Span) :
    (m.record b p span).get? block pc =
      if span.isValid = true ∧ b = block ∧ p = pc then some span else m.get? block pc := by
  cases hv : span.isValid with
  | false => simp [record, hv]
  | true =>
    simp only [record, hv, get?, find?_insert, ↓reduceIte, true_and]
    split <;> simp_all

end DebugMap

end Diglot
