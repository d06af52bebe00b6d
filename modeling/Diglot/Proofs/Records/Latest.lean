import Mathlib.Data.List.Induction
import Diglot.Proofs.Records.Places

/-! # Lookups in a debug map tell the latest record

A debug map is built by records of places. A record without a valid span does not count, and a later one of
the same place replaces an earlier one.

* `DebugMap.ofRecords` is the map that records lead to, and `DebugMap.latest?` the span of the last record of
  a place that counts, as a scan of the records from their end finds it.
* `get?_ofRecords`: the map has that span at the place.
* `lookups_latest`: the lookups of a map are told by its records alone, and those of a block by the records of
  that block.
-/

set_option autoImplicit false

namespace Diglot.DebugMap

/-- The map that records lead to, one after the other. -/
def ofRecords (records : List DebugEntry) : DebugMap :=
  records.foldl (fun m e => m.record e.block e.pc e.span) {}

/-- The span of the last record of the place whose span is valid. -/
def latest? (records : List DebugEntry) (block pc : Nat) : Option Span :=
  (records.reverse.find? fun e => e.span.isValid && e.block == block && e.pc == pc).map DebugEntry.span

theorem latest?_append_singleton (records : List DebugEntry) (e : DebugEntry) (block pc : Nat) :
    latest? (records ++ [e]) block pc =
      if e.span.isValid = true ∧ e.block = block ∧ e.pc = pc then some e.span
      else latest? records block pc := by
  unfold latest?
  rw [List.reverse_concat]
  split
  · next h => rw [List.find?_cons_of_pos (by simp [h]), Option.map_some]
  · next h => rw [List.find?_cons_of_neg (by simpa [and_assoc] using h)]

/-- Records of other blocks do not count. -/
theorem latest?_filter_block (records : List DebugEntry) (block pc : Nat) :
    latest? (records.filter fun e => e.block == block) block pc = latest? records block pc := by
  have hsame (e : DebugEntry) :
      decide ((e.block == block) = true ∧ (e.span.isValid && e.block == block && e.pc == pc) = true) =
        (e.span.isValid && e.block == block && e.pc == pc) := by
    rw [Bool.eq_iff_iff, decide_eq_true_iff]
    refine and_iff_right_of_imp fun h => ?_
    simp only [Bool.and_eq_true] at h
    exact h.1.2
  unfold latest?
  rw [← List.filter_reverse, List.find?_filter]
  simp only [hsame]

theorem ofRecords_append_singleton (records : List DebugEntry) (e : DebugEntry) :
    ofRecords (records ++ [e]) = (ofRecords records).record e.block e.pc e.span :=
  List.foldl_append

theorem isOrdered_ofRecords (records : List DebugEntry) : (ofRecords records).IsOrdered := by
  induction records using List.reverseRecOn with
  | nil => exact isOrdered_empty
  | append_singleton records e ih =>
    rw [ofRecords_append_singleton]
    exact ih.record e.block e.pc e.span

/-- What the map has at a place is the last record of it that counts. -/
theorem get?_ofRecords (records : List DebugEntry) (block pc : Nat) :
    (ofRecords records).get? block pc = latest? records block pc := by
  -- The induction is on the end of the records, where the scan begins.
  induction records using List.reverseRecOn with
  | nil => rfl
  | append_singleton records e ih =>
    rw [ofRecords_append_singleton, get?_record, latest?_append_singleton, ih]

theorem recordedIn_ofRecords (records : List DebugEntry) (block first last : Nat) :
    (ofRecords records).recordedIn block first last =
      {q | first ≤ q ∧ q ≤ last ∧ (latest? records block q).isSome} := by
  simp only [recordedIn, get?_ofRecords]

/-! ## Lookups of a block -/

section

variable {m m' : DebugMap} {block : Nat}

theorem byPc?_congr (h : m.IsOrdered) (h' : m'.IsOrdered)
    (hget : ∀ q, m.get? block q = m'.get? block q) (pc : Nat) :
    m.byPc? block pc = m'.byPc? block pc := by
  refine Option.ext fun span => ?_
  rw [byPc?_eq_some_iff h, byPc?_eq_some_iff h']
  simp only [recordedIn, hget]

theorem byNode?_congr (h : m.IsOrdered) (h' : m'.IsOrdered) {n : GraphNode}
    (hget : ∀ q, m.get? n.block q = m'.get? n.block q) : m.byNode? n = m'.byNode? n := by
  refine Option.ext fun span => ?_
  rw [byNode?_eq_some_iff_isLeast h, byNode?_eq_some_iff_isLeast h']
  simp only [recordedIn, hget]

end

/-- The map of the records of one block has the same at the places of that block. -/
theorem get?_ofRecords_filter_block (records : List DebugEntry) (block pc : Nat) :
    (ofRecords records).get? block pc =
      (ofRecords (records.filter fun e => e.block == block)).get? block pc := by
  rw [get?_ofRecords, get?_ofRecords, latest?_filter_block]

/-- The lookups of a map that was built by any records. An instruction is found at the greatest place up to
its own that has a valid record in its block, and a node at the least such place of its range, each with the
span of the last valid record of that place; where there is no such place, nothing is found. The running
node comes first if statements are run one by one. Records of other blocks change nothing. -/
theorem lookups_latest (records : List DebugEntry) :
    let m := ofRecords records
    (∀ block pc span, m.byPc? block pc = some span ↔
      ∃ q, IsGreatest {q | q ≤ pc ∧ (latest? records block q).isSome} q ∧
        latest? records block q = some span) ∧
    (∀ block pc, m.byPc? block pc = none ↔ ∀ q ≤ pc, latest? records block q = none) ∧
    (∀ n span, m.byNode? n = some span ↔
      ∃ q, IsLeast {q | n.startPc ≤ q ∧ q ≤ n.endPc ∧ (latest? records n.block q).isSome} q ∧
        latest? records n.block q = some span) ∧
    (∀ n, m.byNode? n = none ↔
      ∀ q, n.startPc ≤ q → q ≤ n.endPc → latest? records n.block q = none) ∧
    (∀ n, n.endPc < n.startPc → m.byNode? n = none) ∧
    (∀ block pc running delta, m.audit? block pc running delta =
      if delta then (running.bind m.byNode?).or (m.byPc? block pc) else m.byPc? block pc) ∧
    (∀ block pc, m.byPc? block pc =
      (ofRecords (records.filter fun e => e.block == block)).byPc? block pc) ∧
    ∀ n, m.byNode? n = (ofRecords (records.filter fun e => e.block == n.block)).byNode? n := by
  intro m
  have hordered : m.IsOrdered := isOrdered_ofRecords records
  refine ⟨fun block pc span => ?_, fun block pc => ?_, fun n span => ?_, fun n => ?_, fun n hn => ?_,
    fun block pc running delta => ?_, fun block pc => ?_, fun n => ?_⟩
  · rw [byPc?_eq_some_iff hordered]
    simp only [m, recordedIn_ofRecords, get?_ofRecords, Nat.zero_le, true_and]
  · rw [byPc?_eq_none_iff hordered]
    simp only [m, get?_ofRecords]
  · rw [byNode?_eq_some_iff_isLeast hordered]
    simp only [m, recordedIn_ofRecords, get?_ofRecords]
  · rw [byNode?_eq_none_iff hordered]
    simp only [m, get?_ofRecords]
  · exact (byNode?_eq_none_iff hordered).mpr fun q hfirst hlast => by omega
  · unfold audit?
    cases delta with
    | false => rfl
    | true => cases running.bind m.byNode? <;> rfl
  · exact byPc?_congr hordered (isOrdered_ofRecords _)
      (fun q => get?_ofRecords_filter_block records block q) pc
  · exact byNode?_congr hordered (isOrdered_ofRecords _)
      fun q => get?_ofRecords_filter_block records n.block q

/-- A later record replaces an earlier one, one without a valid span does not, and neither block is searched
for the other one. -/
example :
    let m := ofRecords [⟨0, 5, .point 2 1⟩, ⟨1, 3, .point 7 3⟩, ⟨0, 5, .point 3 4⟩, ⟨0, 9, .nil⟩]
    m.byPc? 0 9 = some (.point 3 4) ∧ m.byPc? 0 4 = none ∧ m.byPc? 1 2 = none ∧
      m.byNode? { uid := 0, block := 0, startPc := 6, endPc := 9 } = none := by
  decide

end Diglot.DebugMap
