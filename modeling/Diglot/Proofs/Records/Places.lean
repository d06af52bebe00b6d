import Mathlib.Order.Bounds.Basic
import Diglot.Code.DebugMap

/-! # The order of a debug map

A debug map that was built by recording places is in order: no place stands in it twice, and places of one
block stand in increasing order.

* `get?_eq_some_iff`: what is found at a place is its only entry.
* `byNode?_eq_some_iff`, `byNode?_eq_none_iff`: what is found for a dependency node is the entry of the first
  recorded place of its range.
* `byPc?_eq_some_iff`, `byPc?_eq_none_iff`: what is found for an instruction is the entry of the last recorded
  place up to its own.
-/

set_option autoImplicit false

namespace Diglot

/-- The place of an entry comes before that of another one. -/
def DebugEntry.Precedes (e f : DebugEntry) : Prop := e.block < f.block ∨ e.block = f.block ∧ e.pc < f.pc

namespace DebugMap

theorem before_iff {b p b' p' : Nat} : before b p b' p' = true ↔ b < b' ∨ b = b' ∧ p < p' := by
  simp [before]

/-- The entries stand in the order of their places, without a repetition. -/
def IsOrdered (m : DebugMap) : Prop := m.entries.Pairwise DebugEntry.Precedes

variable {m : DebugMap} {block pc first last : Nat} {span : Span}

/-! ## Recording keeps the order -/

theorem pairwise_insert (e : DebugEntry) {l : List DebugEntry} (h : l.Pairwise DebugEntry.Precedes) :
    (insert e l).Pairwise DebugEntry.Precedes := by
  induction l with
  | nil => exact List.pairwise_singleton _ _
  | cons g rest ih =>
    obtain ⟨hg, hrest⟩ := List.pairwise_cons.mp h
    unfold insert
    split
    · next hbefore =>
      have heg : e.Precedes g := before_iff.mp hbefore
      refine List.pairwise_cons.mpr ⟨fun x hx => ?_, h⟩
      rcases List.mem_cons.mp hx with rfl | hx
      · exact heg
      · have hgx := hg x hx
        unfold DebugEntry.Precedes at *
        omega
    next hbefore =>
    split
    · next hsame =>
      refine List.pairwise_cons.mpr ⟨fun x hx => ?_, hrest⟩
      have hgx := hg x hx
      unfold DebugEntry.Precedes at *
      omega
    · next hother =>
      have hge : g.Precedes e := by
        rw [before_iff] at hbefore
        unfold DebugEntry.Precedes
        omega
      refine List.pairwise_cons.mpr ⟨fun x hx => ?_, ih hrest⟩
      rcases mem_insert hx with rfl | hx
      · exact hge
      · exact hg x hx

theorem IsOrdered.record (h : m.IsOrdered) (block pc : Nat) (span : Span) :
    (m.record block pc span).IsOrdered := by
  unfold DebugMap.record
  split
  · exact pairwise_insert _ h
  · exact h

theorem isOrdered_empty : IsOrdered {} := List.Pairwise.nil

/-! ## Looking up a place -/

theorem mem_of_get? (h : m.get? block pc = some span) : ⟨block, pc, span⟩ ∈ m.entries := by
  obtain ⟨e, he, rfl⟩ := Option.map_eq_some_iff.mp h
  have hplace := List.find?_some he
  simp only [Bool.and_eq_true, beq_iff_eq] at hplace
  obtain ⟨rfl, rfl⟩ := hplace
  exact List.mem_of_find?_eq_some he

/-- What is found at a place is its only entry. -/
theorem get?_eq_some_iff (h : m.IsOrdered) :
    m.get? block pc = some span ↔ ⟨block, pc, span⟩ ∈ m.entries := by
  refine ⟨mem_of_get?, fun hmem => ?_⟩
  have hfind : (m.entries.find? fun e => e.block == block && e.pc == pc) = some ⟨block, pc, span⟩ := by
    obtain ⟨before, after, heq⟩ := List.append_of_mem hmem
    unfold IsOrdered at h
    rw [heq] at h ⊢
    refine List.find?_eq_some_iff_append.mpr ⟨by simp, before, after, rfl, fun x hx => ?_⟩
    have hearlier : x.block < block ∨ x.block = block ∧ x.pc < pc :=
      (List.pairwise_append.mp h).2.2 x hx _ (List.mem_cons_self ..)
    simp only [Bool.not_eq_true', Bool.and_eq_false_iff, beq_eq_false_iff_ne]
    omega
  simp [get?, hfind]

/-! ## Looking up a range -/

/-- The entries between two places are those of the recorded places there. -/
theorem mem_between_iff (h : m.IsOrdered) {e : DebugEntry} :
    e ∈ m.between block first last ↔
      e.block = block ∧ first ≤ e.pc ∧ e.pc ≤ last ∧ m.get? block e.pc = some e.span := by
  constructor
  · intro he
    obtain ⟨hmem, hin⟩ := List.mem_filter.mp he
    simp only [Bool.and_eq_true, beq_iff_eq, decide_eq_true_eq] at hin
    obtain ⟨⟨rfl, hfirst⟩, hlast⟩ := hin
    exact ⟨rfl, hfirst, hlast, (get?_eq_some_iff h).mpr hmem⟩
  · rintro ⟨rfl, hfirst, hlast, hget⟩
    exact List.mem_filter.mpr ⟨mem_of_get? hget, by simp [hfirst, hlast]⟩

theorem between_eq_nil_iff (h : m.IsOrdered) :
    m.between block first last = [] ↔ ∀ pc, first ≤ pc → pc ≤ last → m.get? block pc = none := by
  rw [List.eq_nil_iff_forall_not_mem]
  constructor
  · intro hempty pc hfirst hlast
    refine Option.eq_none_iff_forall_ne_some.mpr fun span hget => ?_
    exact hempty ⟨block, pc, span⟩ ((mem_between_iff h).mpr ⟨rfl, hfirst, hlast, hget⟩)
  · intro hnone e he
    obtain ⟨-, hfirst, hlast, hget⟩ := (mem_between_iff h).mp he
    rw [hnone e.pc hfirst hlast] at hget
    cases hget

/-- The entries between two places stand in the order of their positions. -/
theorem pairwise_between (h : m.IsOrdered) (block first last : Nat) :
    (m.between block first last).Pairwise fun e f => e.pc < f.pc := by
  refine List.Pairwise.imp_of_mem (fun {e f} he hf hprec => ?_) (h.filter _)
  have hsame : e.block = f.block :=
    ((mem_between_iff h).mp he).1.trans ((mem_between_iff h).mp hf).1.symm
  unfold DebugEntry.Precedes at hprec
  omega

/-- The places of a block between two of them that are recorded. -/
def recordedIn (m : DebugMap) (block first last : Nat) : Set Nat :=
  {pc | first ≤ pc ∧ pc ≤ last ∧ (m.get? block pc).isSome}

theorem mem_recordedIn_iff (h : m.IsOrdered) :
    pc ∈ m.recordedIn block first last ↔ ∃ e ∈ m.between block first last, e.pc = pc := by
  constructor
  · rintro ⟨hfirst, hlast, hsome⟩
    obtain ⟨span, hget⟩ := Option.isSome_iff_exists.mp hsome
    exact ⟨⟨block, pc, span⟩, (mem_between_iff h).mpr ⟨rfl, hfirst, hlast, hget⟩, rfl⟩
  · rintro ⟨e, he, rfl⟩
    obtain ⟨-, hfirst, hlast, hget⟩ := (mem_between_iff h).mp he
    exact ⟨hfirst, hlast, by simp [hget]⟩

/-- A list that is in order begins with the member that no other one comes before. -/
theorem head?_eq_some_iff_of_pairwise {α : Type} {R : α → α → Prop} (hasymm : ∀ a b, R a b → ¬ R b a)
    {l : List α} (h : l.Pairwise R) {a : α} : l.head? = some a ↔ a ∈ l ∧ ∀ b ∈ l, ¬ R b a := by
  cases l with
  | nil => simp
  | cons c rest =>
    have hc := (List.pairwise_cons.mp h).1
    constructor
    · intro hhead
      obtain rfl := Option.some.inj hhead
      refine ⟨List.mem_cons_self .., fun b hb hba => ?_⟩
      rcases List.mem_cons.mp hb with rfl | hb
      · exact hasymm b b hba hba
      · exact hasymm b c hba (hc b hb)
    · rintro ⟨ha, hfirst⟩
      rcases List.mem_cons.mp ha with rfl | ha
      · rfl
      · exact absurd (hc a ha) (hfirst c (List.mem_cons_self ..))

/-- The entries of a range, in whichever order of their places, begin with the entry of the recorded place
that no other one comes before. -/
theorem head?_map_span_eq_some_iff (h : m.IsOrdered) {R : Nat → Nat → Prop}
    (hasymm : ∀ p q, R p q → ¬ R q p) {l : List DebugEntry}
    (hmem : ∀ e, e ∈ l ↔ e ∈ m.between block first last) (hl : l.Pairwise fun e f => R e.pc f.pc) :
    l.head?.map DebugEntry.span = some span ↔
      ∃ pc, (pc ∈ m.recordedIn block first last ∧ ∀ q ∈ m.recordedIn block first last, ¬ R q pc) ∧
        m.get? block pc = some span := by
  have hhead (e : DebugEntry) : l.head? = some e ↔ e ∈ l ∧ ∀ f ∈ l, ¬ R f.pc e.pc :=
    head?_eq_some_iff_of_pairwise (fun e f => hasymm e.pc f.pc) hl
  constructor
  · intro hspan
    obtain ⟨e, he, rfl⟩ := Option.map_eq_some_iff.mp hspan
    obtain ⟨hin, hfirst⟩ := (hhead e).mp he
    rw [hmem] at hin
    refine ⟨e.pc, ⟨(mem_recordedIn_iff h).mpr ⟨e, hin, rfl⟩, fun q hq => ?_⟩,
      ((mem_between_iff h).mp hin).2.2.2⟩
    obtain ⟨f, hf, rfl⟩ := (mem_recordedIn_iff h).mp hq
    exact hfirst f ((hmem f).mpr hf)
  · rintro ⟨pc, ⟨⟨hle, hge, -⟩, hfirst⟩, hget⟩
    have hin : ⟨block, pc, span⟩ ∈ l :=
      (hmem _).mpr ((mem_between_iff h).mpr ⟨rfl, hle, hge, hget⟩)
    have he := (hhead ⟨block, pc, span⟩).mpr
      ⟨hin, fun f hf => hfirst f.pc ((mem_recordedIn_iff h).mpr ⟨f, (hmem f).mp hf, rfl⟩)⟩
    rw [he, Option.map_some]

/-- The place is the first one between two places of the block that is recorded. -/
structure IsFirst (m : DebugMap) (block first last pc : Nat) (span : Span) : Prop where
  first_le : first ≤ pc
  le_last : pc ≤ last
  get? : m.get? block pc = some span
  earlier : ∀ q, first ≤ q → q < pc → m.get? block q = none

theorem isFirst_iff : m.IsFirst block first last pc span ↔
    IsLeast (m.recordedIn block first last) pc ∧ m.get? block pc = some span := by
  constructor
  · rintro ⟨hfirst, hlast, hget, hearlier⟩
    refine ⟨⟨⟨hfirst, hlast, by simp [hget]⟩, fun q ⟨hq, _, hsome⟩ => ?_⟩, hget⟩
    refine Nat.le_of_not_lt fun hlt => ?_
    rw [hearlier q hq hlt] at hsome
    cases hsome
  · rintro ⟨⟨⟨hfirst, hlast, -⟩, hleast⟩, hget⟩
    refine ⟨hfirst, hlast, hget, fun q hq hlt => ?_⟩
    refine Decidable.byContradiction fun hsome => ?_
    have hle : pc ≤ q := hleast ⟨hq, by omega, Option.isSome_iff_ne_none.mpr hsome⟩
    omega

/-- A node is found at the least recorded place of its range. -/
theorem byNode?_eq_some_iff_isLeast (h : m.IsOrdered) {n : GraphNode} :
    m.byNode? n = some span ↔ ∃ pc,
      IsLeast (m.recordedIn n.block n.startPc n.endPc) pc ∧ m.get? n.block pc = some span := by
  unfold byNode?
  rw [head?_map_span_eq_some_iff h (R := fun p q => p < q) (fun _ _ => Nat.lt_asymm)
    (fun _ => Iff.rfl) (pairwise_between h ..)]
  simp only [IsLeast, mem_lowerBounds, Nat.not_lt]

theorem byNode?_eq_some_iff (h : m.IsOrdered) {n : GraphNode} :
    m.byNode? n = some span ↔ ∃ pc, m.IsFirst n.block n.startPc n.endPc pc span :=
  (byNode?_eq_some_iff_isLeast h).trans (exists_congr fun _ => isFirst_iff.symm)

/-- A node is found nowhere if no place of its range is recorded. -/
theorem byNode?_eq_none_iff (h : m.IsOrdered) {n : GraphNode} :
    m.byNode? n = none ↔ ∀ pc, n.startPc ≤ pc → pc ≤ n.endPc → m.get? n.block pc = none := by
  unfold byNode?
  rw [Option.map_eq_none_iff, List.head?_eq_none_iff, between_eq_nil_iff h]

/-- An instruction is found at the greatest recorded place up to its own. -/
theorem byPc?_eq_some_iff (h : m.IsOrdered) :
    m.byPc? block pc = some span ↔
      ∃ q, IsGreatest (m.recordedIn block 0 pc) q ∧ m.get? block q = some span := by
  unfold byPc?
  rw [List.getLast?_eq_head?_reverse, head?_map_span_eq_some_iff h (R := fun p q => q < p)
    (fun _ _ => Nat.lt_asymm) (fun _ => List.mem_reverse)
    (List.pairwise_reverse.mpr (pairwise_between h ..))]
  simp only [IsGreatest, mem_upperBounds, Nat.not_lt]

/-- An instruction is found nowhere if no place up to its own is recorded. -/
theorem byPc?_eq_none_iff (h : m.IsOrdered) :
    m.byPc? block pc = none ↔ ∀ q ≤ pc, m.get? block q = none := by
  unfold byPc?
  rw [Option.map_eq_none_iff, List.getLast?_eq_none_iff, between_eq_nil_iff h]
  simp only [Nat.zero_le, true_implies]

end DebugMap

end Diglot
