import Diglot.Proofs.Mild.Expression

/-! # Sessions whose dependency nodes are in order

* `Computed code n`: the node was made by the run of an assignment or of a return, and the instructions
  of its range are those that the run emitted for the value, no more and no fewer.
* `Session.chart`: the nodes of a block together with those that are held back for it until the chain
  that they were split off is complete.
* `Session.Charted`: the nodes of a session are in order, as if those that are held back were part of
  the program already. It is kept by what keeps the nodes (`Charted.transfer`), and a node that is made
  behind the others can be added (`Charted.extend`).
-/

set_option autoImplicit false

namespace Diglot

open Lowering

/-! ## What a node covers -/

/-- The node as part of the program, without what changes while its statement is lowered. -/
def GraphNode.closed (n : GraphNode) : GraphNode := { n.core with isSealed := true }

/-- The instructions in the range of the node are those that were emitted from `t` to `u`. -/
def Covers (code : Array Instruction) (n : GraphNode) (t u : State) : Prop :=
  ∃ emitted behind : List Instruction,
    (u.session.stream n.block).toList = (t.session.stream n.block).toList ++ emitted ∧
      code.toList = (t.session.stream n.block).toList ++ emitted ++ behind ∧
      n.startPc = (t.session.stream n.block).size ∧ n.endPc + 1 = n.startPc + emitted.length

/-- The node is the one of an assignment or of a return, and covers what was emitted for the value. -/
inductive Computed (code : Array Instruction) (n : GraphNode) : Prop where
  | assignment {target value : Node} {span : Span} {isTemporary isLast : Bool} {f : Frame}
      {s s₁ s₂ t u : State} {fresh m : GraphNode} {type : Ty} (place : f.block = n.block)
      (statement : graphStatement target value span isTemporary isLast f s = .ok m t)
      (made : m.core = { n.core with isSealed := false })
      (opened : freshNode isTemporary f s = .ok fresh s₁) (probed : probe value f s₁ = .ok () s₂)
      (valued : expression value { f with isTracked := true } { s₂ with node := fresh } = .ok type u)
      (covers : Covers code n s₂ u)
  | returned {value : Option Node} {span : Span} {f : Frame} {s s₁ t u : State}
      {fresh m : GraphNode} {type : Ty} (place : f.block = n.block)
      (opened : freshNode false f s = .ok fresh s₁)
      (statement : tracking fresh (returnStatement value span) f s₁ = .ok ((), m) t)
      (made : m.core = { n.core with isSealed := false })
      (valued : lowerReturned value span { f with isTracked := true } { s₁ with node := fresh } =
        .ok type u)
      (covers : Covers code n s₁ u)

section
variable {code code' : Array Instruction} {m n : GraphNode} {t u : State}

theorem Covers.mono (h : Covers code n t u) (hcode : code.toList <+: code'.toList) :
    Covers code' n t u := by
  obtain ⟨emitted, behind, hu, hc, hstart, hend⟩ := h
  obtain ⟨rest, hrest⟩ := hcode
  refine ⟨emitted, behind ++ rest, hu, ?_, hstart, hend⟩
  rw [← hrest, hc, List.append_assoc]

theorem GraphNode.closed_inj (h : m.closed = n.closed) :
    m.block = n.block ∧ m.startPc = n.startPc ∧ m.endPc = n.endPc := by
  simp only [closed, core, mk.injEq] at h
  exact ⟨h.2.1, h.2.2.2.2.1, h.2.2.2.2.2.1⟩

theorem Covers.congr (h : Covers code n t u) (hnode : m.closed = n.closed) : Covers code m t u := by
  obtain ⟨hblock, hstart, hend⟩ := GraphNode.closed_inj hnode
  unfold Covers
  rw [hblock, hstart, hend]
  exact h

theorem Covers.range (h : Covers code n t u)
    (hsize : (t.session.stream n.block).size + 1 ≤ (u.session.stream n.block).size) :
    n.startPc ≤ n.endPc ∧ n.endPc < code.size := by
  obtain ⟨emitted, behind, hu, hc, hstart, hend⟩ := h
  have hgrown := congrArg List.length hu
  have hcode := congrArg List.length hc
  simp only [List.length_append, Array.length_toList] at hgrown hcode
  omega

namespace Computed

theorem mono (h : Computed code n) (hcode : code.toList <+: code'.toList) : Computed code' n := by
  cases h with
  | assignment place statement made opened probed valued covers =>
    exact .assignment place statement made opened probed valued (covers.mono hcode)
  | returned place opened statement made valued covers =>
    exact .returned place opened statement made valued (covers.mono hcode)

theorem congr (h : Computed code n) (hnode : m.closed = n.closed) : Computed code m := by
  have hblock := (GraphNode.closed_inj hnode).1
  have hopen : ({ n.core with isSealed := false } : GraphNode) = { m.core with isSealed := false } :=
    congrArg (fun k : GraphNode => { k with isSealed := false }) hnode.symm
  cases h with
  | assignment place statement made opened probed valued covers =>
    exact .assignment (place.trans hblock.symm) statement (made.trans hopen) opened probed valued
      (covers.congr hnode)
  | returned place opened statement made valued covers =>
    exact .returned (place.trans hblock.symm) opened statement (made.trans hopen) valued
      (covers.congr hnode)

/-- A value is at least one instruction. -/
theorem range (h : Computed code n) : n.startPc ≤ n.endPc ∧ n.endPc < code.size := by
  cases h with
  | @assignment _ value _ _ _ f _ _ s₂ _ u fresh _ type place _ _ _ _ valued covers =>
    have hvalue : Tame false true (expression value) := .expression value
    have hsize := hvalue.emits _ _ type u valued
    rw [place] at hsize
    exact covers.range hsize
  | @returned value span f _ s₁ _ u fresh _ type place _ _ _ valued covers =>
    have hvalue : Tame false true (lowerReturned value span) := .lowerReturned value span
    have hsize := hvalue.emits _ _ type u valued
    rw [place] at hsize
    exact covers.range hsize

end Computed

end

/-! ## The nodes of a block -/

namespace Session

variable {s t : Session} {block block' : Nat} {held held' : List GraphNode}

/-- The nodes of a block, with those that are held back if it is the given one. -/
def chart (s : Session) (block : Nat) (held : List GraphNode) (id : Nat) : List GraphNode :=
  ((s.block? id).map fun b => b.graph.toList.map GraphNode.core).getD [] ++
    if id = block then held.map GraphNode.closed else []

/-- The nodes of all blocks are in order, with those that are held back for one of them. -/
structure Charted (s : Session) (block : Nat) (held : List GraphNode) : Prop where
  placed : ∀ id b, s.block? id = some b → b.id = id
  nodes : ∀ id b, s.block? id = some b → ∀ n ∈ s.chart block held id,
    n.isSealed = true ∧ n.block = id ∧ Computed b.code n
  below : ∀ id, ∀ n ∈ s.chart block held id, n.uid < s.nextUid
  ordered : ∀ id, (s.chart block held id).Pairwise fun m n => m.endPc < n.startPc ∧ m.uid < n.uid
  apart : ∀ i j, ∀ m ∈ s.chart block held i, ∀ n ∈ s.chart block held j, m.uid = n.uid → i = j
  imperative : ∀ id b, s.block? id = some b → b.dialect = .imperative → s.chart block held id = []
  started : s.counters.units = 0 → ∀ id, s.chart block held id = []

theorem chart_none (id : Nat) : s.chart block [] id = s.chart block' [] id := by simp [chart]

theorem chart_of_empty {b : Block} {id : Nat} (hb : s.block? id = some b) (hempty : b.graph = #[]) :
    s.chart block [] id = [] := by simp [chart, hb, hempty]

theorem chart_of_missing {id : Nat} (h : s.block? id = none) : s.chart block [] id = [] := by
  simp [chart, h]

theorem chart_sublist (id : Nat) : (s.chart block [] id).Sublist (s.chart block held id) := by
  simp only [chart, List.map_nil, ite_self, List.append_nil]
  exact List.sublist_append_left _ _

theorem chart_append (n : GraphNode) (id : Nat) :
    s.chart block (held ++ [n]) id =
      s.chart block held id ++ if id = block then [n.closed] else [] := by
  unfold chart
  by_cases h : id = block <;> simp [h]

theorem chart_modifyBlock {place : Nat} {g : Block → Block} (hg : ∀ b, (g b).graph = b.graph)
    (id : Nat) : (s.modifyBlock place g).chart block held id = s.chart block held id := by
  unfold chart
  rw [block?_modifyBlock]
  split
  · cases s.block? id <;> simp [hg]
  · rfl

namespace Charted

/-- Whatever loses no nodes but whole lists of them, and no code of those that are left, keeps the
nodes in order. -/
theorem transfer (h : s.Charted block held)
    (hchart : ∀ id, (t.chart block' held' id).Sublist (s.chart block held id))
    (hnext : s.nextUid ≤ t.nextUid) (hunits : t.counters.units = 0 → s.counters.units = 0)
    (hblocks : ∀ id c, t.block? id = some c → c.id = id ∧
      (t.chart block' held' id = [] ∨
        ∃ b, s.block? id = some b ∧ c.dialect = b.dialect ∧ b.code.toList <+: c.code.toList)) :
    t.Charted block' held' := by
  refine ⟨fun id c hc => (hblocks id c hc).1, fun id c hc n hn => ?_,
    fun id n hn => Nat.lt_of_lt_of_le (h.below id n ((hchart id).mem hn)) hnext,
    fun id => (h.ordered id).sublist (hchart id), fun i j m hm n hn => ?_, fun id c hc hd => ?_,
    fun hu id => ?_⟩
  · obtain ⟨-, hempty | ⟨b, hb, -, hcode⟩⟩ := hblocks id c hc
    · rw [hempty] at hn
      cases hn
    · obtain ⟨hsealed, hblock, hcomputed⟩ := h.nodes id b hb n ((hchart id).mem hn)
      exact ⟨hsealed, hblock, hcomputed.mono hcode⟩
  · exact h.apart i j m ((hchart i).mem hm) n ((hchart j).mem hn)
  · obtain ⟨-, hempty | ⟨b, hb, hdialect, -⟩⟩ := hblocks id c hc
    · exact hempty
    · have hnone := hchart id
      rw [h.imperative id b hb (hdialect.symm.trans hd)] at hnone
      exact List.sublist_nil.mp hnone
  · have hnone := hchart id
    rw [h.started (hunits hu) id] at hnone
    exact List.sublist_nil.mp hnone

theorem keep (h : s.Charted block held)
    (hchart : ∀ id, t.chart block' held' id = s.chart block held id)
    (hnext : s.nextUid ≤ t.nextUid) (hunits : t.counters.units = 0 → s.counters.units = 0)
    (hblocks : ∀ id c, t.block? id = some c → c.id = id ∧
      (t.chart block' held' id = [] ∨
        ∃ b, s.block? id = some b ∧ c.dialect = b.dialect ∧ b.code.toList <+: c.code.toList)) :
    t.Charted block' held' := by
  refine h.transfer (fun id => ?_) hnext hunits hblocks
  exact hchart id ▸ List.Sublist.refl (t.chart block' held' id)

theorem drop (h : s.Charted block held) (block' : Nat) : s.Charted block' [] := by
  refine h.transfer (fun id => ?_) (Nat.le_refl _) id fun id b hb => ?_
  · exact chart_none id ▸ chart_sublist id
  · exact ⟨h.placed id b hb, .inr ⟨b, hb, rfl, List.prefix_refl _⟩⟩

end Charted

theorem Still.before (h : s.Still t) {id : Nat} {c : Block} (hc : t.block? id = some c) :
    ∃ b, s.block? id = some b ∧ b.Still c := by
  have hlt : id < s.blocks.size := by
    rw [← h.size]
    exact (Array.getElem?_eq_some_iff.mp hc).1
  have hb : s.block? id = some s.blocks[id] := Array.getElem?_eq_getElem hlt
  obtain ⟨c', hc', hbc⟩ := h.blocks id _ hb
  rw [hc] at hc'
  cases hc'
  exact ⟨_, hb, hbc⟩

theorem Still.chart (h : s.Still t) (hheld : held'.map GraphNode.core = held.map GraphNode.core)
    (id : Nat) : t.chart block held' id = s.chart block held id := by
  have hclosed : held'.map GraphNode.closed = held.map GraphNode.closed := by
    have := congrArg (List.map fun n : GraphNode => { n with isSealed := true }) hheld
    rwa [List.map_map, List.map_map] at this
  unfold Session.chart
  rw [hclosed]
  cases hc : t.block? id with
  | some c =>
    obtain ⟨b, hb, hbc⟩ := h.before hc
    simp [hb, hbc.graph]
  | none =>
    cases hb : s.block? id with
    | none => rfl
    | some b =>
      obtain ⟨c, hc', -⟩ := h.blocks id b hb
      rw [hc] at hc'
      cases hc'

namespace Charted

theorem take (h : s.Charted block held) :
    Session.Charted { s with nextUid := s.nextUid + 1 } block held := by
  refine h.keep (fun _ => rfl) (Nat.le_succ _) id fun id b hb => ?_
  exact ⟨h.placed id b hb, .inr ⟨b, hb, rfl, List.prefix_refl _⟩⟩

theorem still (h : s.Charted block held) (hst : s.Still t)
    (hheld : held'.map GraphNode.core = held.map GraphNode.core) : t.Charted block held' := by
  refine h.keep (hst.chart hheld) (Nat.le_of_eq hst.nextUid.symm) ?_ fun id c hc => ?_
  · exact fun hu => hst.units.symm.trans hu
  · obtain ⟨b, hb, hbc⟩ := hst.before hc
    exact ⟨hbc.id.trans (h.placed id b hb), .inr ⟨b, hb, hbc.dialect, hbc.code⟩⟩

/-- A node that was made behind the others is held back. -/
theorem extend (h : s.Charted block held) {b : Block} {n : GraphNode} (hb : s.block? block = some b)
    (hdialect : b.dialect = .associative) (hunits : s.counters.units ≠ 0) (hblock : n.block = block)
    (huid : n.uid < s.nextUid) (hcomputed : Computed b.code n)
    (hfresh : ∀ id, ∀ m ∈ s.chart block held id, m.uid < n.uid)
    (hbehind : ∀ m ∈ s.chart block held block, m.endPc < n.startPc) :
    s.Charted block (held ++ [n]) := by
  have hmem {id : Nat} {m : GraphNode} (hm : m ∈ s.chart block (held ++ [n]) id) :
      m ∈ s.chart block held id ∨ id = block ∧ m = n.closed := by
    rw [chart_append] at hm
    rcases List.mem_append.mp hm with hm | hm
    · exact .inl hm
    · split at hm
      · exact .inr ⟨‹_›, List.mem_singleton.mp hm⟩
      · cases hm
  refine ⟨h.placed, fun id c hc m hm => ?_, fun id m hm => ?_, fun id => ?_,
    fun i j m hm k hk heq => ?_, fun id c hc hd => ?_, fun hu => absurd hu hunits⟩
  · rcases hmem hm with hm | ⟨rfl, rfl⟩
    · exact h.nodes id c hc m hm
    · rw [hb] at hc
      cases hc
      exact ⟨rfl, hblock, hcomputed.congr rfl⟩
  · rcases hmem hm with hm | ⟨rfl, rfl⟩
    · exact h.below id m hm
    · exact huid
  · rw [chart_append]
    by_cases hid : id = block
    · subst hid
      rw [if_pos rfl]
      refine List.pairwise_append.mpr ⟨h.ordered _, List.pairwise_singleton _ _, fun m hm k hk => ?_⟩
      rw [List.mem_singleton.mp hk]
      exact ⟨hbehind m hm, hfresh _ m hm⟩
    · rw [if_neg hid, List.append_nil]
      exact h.ordered id
  · rcases hmem hm with hm | ⟨rfl, rfl⟩ <;> rcases hmem hk with hk | ⟨rfl, rfl⟩
    · exact h.apart i j m hm k hk heq
    · have hlt : m.uid < n.uid := hfresh i m hm
      exact absurd heq (Nat.ne_of_lt hlt)
    · have hlt : k.uid < n.uid := hfresh j k hk
      exact absurd heq.symm (Nat.ne_of_lt hlt)
    · rfl
  · have hne : id ≠ block := by
      rintro rfl
      rw [hb] at hc
      cases hc
      rw [hdialect] at hd
      cases hd
    rw [chart_append, if_neg hne, List.append_nil]
    exact h.imperative id c hc hd

/-- The first of the nodes that are held back becomes part of the program. -/
theorem commit {n : GraphNode} {rest : List GraphNode} (h : s.Charted block (n :: rest))
    (hsome : (s.block? block).isSome) :
    (s.modifyBlock block fun b =>
      { b with graph := b.graph.push { n with isSealed := true } }).Charted block rest := by
  obtain ⟨b, hb⟩ := Option.isSome_iff_exists.mp hsome
  have hchart (id : Nat) :
      (s.modifyBlock block fun b =>
        { b with graph := b.graph.push { n with isSealed := true } }).chart block rest id =
      s.chart block (n :: rest) id := by
    unfold chart
    rw [block?_modifyBlock]
    by_cases hid : block = id
    · subst hid
      simp [hb, GraphNode.closed, GraphNode.core]
    · simp [hid, Ne.symm hid]
  refine h.keep hchart (Nat.le_refl _) id fun id c hc => ?_
  rw [block?_modifyBlock] at hc
  by_cases hid : block = id
  · subst hid
    rw [if_pos rfl, hb] at hc
    cases hc
    exact ⟨h.placed _ b hb, .inr ⟨b, hb, rfl, List.prefix_refl _⟩⟩
  · rw [if_neg hid] at hc
    exact ⟨h.placed _ c hc, .inr ⟨c, hc, rfl, List.prefix_refl _⟩⟩

end Charted

end Session

end Diglot
