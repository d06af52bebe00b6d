import Diglot.Proofs.Graph.Statement
import Diglot.Proofs.Requests

/-! # Dependency nodes are well formed

Whatever a session is asked to do, and however that ends, the nodes of its blocks are in order
(`Session.serveAll_wellCharted`): each node is sealed, belongs to its block and covers just the code of
its value; the ranges of a block follow one another; identities grow along a block and are never given
out twice; imperative blocks have no nodes.
-/

set_option autoImplicit false

namespace Diglot

open Lowering

/-- The nodes of the block are well formed, and each is behind the one before it. -/
structure Block.WellCharted (b : Block) : Prop where
  sealed : ∀ n ∈ b.graph, n.isSealed = true
  block : ∀ n ∈ b.graph, n.block = b.id
  range : ∀ n ∈ b.graph, n.startPc ≤ n.endPc ∧ n.endPc < b.code.size
  computed : ∀ n ∈ b.graph, Computed b.code n
  ordered : b.graph.toList.Pairwise fun m n => m.endPc < n.startPc ∧ m.uid < n.uid
  imperative : b.dialect = .imperative → b.graph = #[]

namespace Session

variable {s t : Session}

theorem Charted.ofBlocks (h : s.Charted 0 []) (hblocks : t.blocks = s.blocks)
    (hnext : t.nextUid = s.nextUid) (hunits : t.counters.units = 0 → s.counters.units = 0) :
    t.Charted 0 [] := by
  have hsame (id : Nat) : t.block? id = s.block? id := by rw [block?, hblocks, block?]
  refine h.keep (fun id => ?_) (Nat.le_of_eq hnext.symm) hunits fun id c hc => ?_
  · simp only [chart, hsame]
  · rw [hsame] at hc
    exact ⟨h.placed id c hc, .inr ⟨c, hc, rfl, List.prefix_refl _⟩⟩

theorem lower_snd {α : Type} (s : Session) (f : Frame) (m : Lower α) :
    (s.lower f m).2 = (ending (m f { session := s })).session := by
  rw [lower_eq]
  cases m f { session := s } <;> rfl

/-! ## Compiling -/

/-- Before the first unit there are no nodes, so that the first block may get its dialect. -/
theorem Charted.setDialect (h : s.Charted 0 []) (hunits : s.counters.units = 0) (dialect : Dialect) :
    (s.modifyBlock 0 fun b => { b with dialect }).Charted 0 [] := by
  have hchart (id : Nat) :
      (s.modifyBlock 0 fun b => { b with dialect }).chart 0 [] id = s.chart 0 [] id := by
    refine chart_modifyBlock ?_ id
    exact fun _ => rfl
  refine h.keep hchart (Nat.le_refl _) (fun _ => hunits) fun id c hc => ?_
  refine ⟨?_, .inl ((hchart id).trans (h.started hunits id))⟩
  rw [block?_modifyBlock] at hc
  split at hc
  · obtain ⟨b, hb, rfl⟩ := Option.map_eq_some_iff.mp hc
    exact h.placed id b hb
  · exact h.placed id c hc

theorem exists_addBlock (s : Session) (kind : BlockKind) (dialect : Dialect) (parent : Option Nat) :
    ∃ b, (s.addBlock kind dialect parent).block? s.blocks.size = some b ∧ b.dialect = dialect := by
  have hb : (s.pushBlock { id := s.blocks.size, kind, dialect, parent }).block? s.blocks.size =
      some { id := s.blocks.size, kind, dialect, parent } :=
    (s.block?_pushBlock _ _).trans (if_pos rfl)
  obtain ⟨c, hc, hbc⟩ := (s.still_addBlock kind dialect parent).blocks _ _ hb
  exact ⟨c, hc, hbc.dialect⟩

theorem Charted.openUnit (h : s.Charted 0 []) (dialect : Dialect) :
    (s.openUnit dialect).2.Charted 0 [] ∧
      ∃ b, (s.openUnit dialect).2.block? (s.openUnit dialect).1 = some b ∧ b.dialect = dialect := by
  unfold Session.openUnit
  split
  · next hunits =>
    split
    · next hempty =>
      have hsize : s.blocks.size = 0 := by simpa using hempty
      have hnew := s.exists_addBlock .global dialect none
      rw [hsize] at hnew
      exact ⟨h.addBlock .global dialect none, hnew⟩
    · next hsome =>
      have hlt : 0 < s.blocks.size := by
        apply Nat.pos_of_ne_zero
        simpa using hsome
      have hb : s.block? 0 = some s.blocks[0] := Array.getElem?_eq_getElem hlt
      refine ⟨h.setDialect hunits dialect, { s.blocks[0] with dialect }, ?_, rfl⟩
      rw [block?_modifyBlock, if_pos rfl, hb, Option.map_some]
  · exact ⟨h.addBlock .global dialect (some 0), s.exists_addBlock .global dialect (some 0)⟩

theorem isWatching_openUnit (s : Session) (dialect : Dialect) :
    (s.openUnit dialect).2.isWatching = s.isWatching := by
  unfold openUnit
  split
  · split <;> rfl
  · rfl

theorem Charted.compile (h : s.Charted 0 []) (unit : List Node) (dialect : Dialect) :
    (s.compile unit dialect).2.Charted 0 [] := by
  obtain ⟨hopen, b, hb, hd⟩ :=
    (h.ofBlocks (t := { s with isWatching := false }) rfl rfl id).openUnit dialect
  let start := (s.unitStart dialect).2
  have hcharted : start.Charted 0 [] := hopen.ofBlocks rfl rfl fun hu => by cases hu
  have hsited : start.Sited [((s.unitStart dialect).1, dialect)] := by
    refine ⟨Session.isWatching_openUnit { s with isWatching := false } dialect, nofun, fun p hp => ?_⟩
    rw [List.mem_singleton.mp hp]
    exact ⟨b, hb, hd⟩
  have hunit := Upheld.lowerUnit (f := s.unitSite dialect) upholds_statement
    (List.mem_singleton_self ((s.unitStart dialect).1, dialect)) .global unit []
  obtain ⟨-, hend⟩ := Upheld.bind hunit (fun _ => .pure (s.unitStart dialect).1)
    { session := start } hsited hcharted
  rw [← lower_snd] at hend
  exact hend

theorem Charted.watchExpression (h : s.Charted 0 []) (id : Nat) (node : Node) :
    (s.watchExpression id node).2.Charted 0 [] := by
  cases hb : s.block? id with
  | none =>
    have hrun : (s.watchExpression id node).2 = s := by simp [Session.watchExpression, hb]
    rwa [hrun]
  | some b =>
    have hrun : (s.watchExpression id node).2 =
        { (Session.lower { s with isWatching := true } (s.watchSite id b) (lowerWatch node)).2 with
          isWatching := false } := by
      simp only [Session.watchExpression, hb]
      rfl
    have hstart : Session.Charted { s with isWatching := true } 0 [] := h.ofBlocks rfl rfl fun hu => hu
    have hkept := (Mild.lowerWatch node).keeps (s.watchSite id b)
      { session := { s with isWatching := true } }
    have hend : (Session.lower { s with isWatching := true } (s.watchSite id b)
        (lowerWatch node)).2.Charted 0 [] := by
      rw [lower_snd]
      exact hstart.still hkept.session rfl
    rw [hrun]
    exact hend.ofBlocks rfl rfl fun hu => hu

theorem Charted.importSymbol (h : s.Charted 0 []) (name : String) (type : Ty) (library : String) :
    (s.importSymbol name type library).2.Charted 0 [] := by
  have hstart : (if s.blocks.isEmpty then s.addBlock .global .associative none else s).Charted 0 [] := by
    split
    · exact h.addBlock .global .associative none
    · exact h
  unfold Session.importSymbol
  generalize (if s.blocks.isEmpty then s.addBlock .global .associative none else s) = u at hstart ⊢
  let x : Symbol := { name, type, library := some library, offset := u.counters.globals }
  let v : Session := { u with counters := { u.counters with globals := u.counters.globals + x.size } }
  have hsymbol : v.Still (v.modifyBlock 0 fun b => { b with symbols := b.symbols.append x }) := by
    apply still_modifyBlock
    exact fun b => ⟨rfl, rfl, rfl, List.prefix_refl _⟩
  have hcounted : v.Charted 0 [] := hstart.ofBlocks rfl rfl fun hu => hu
  exact hcounted.still hsymbol rfl

/-! ## Any sequence of calls -/

theorem Charted.serve (h : s.Charted 0 []) (request : Request) : (s.serve request).2.Charted 0 [] := by
  cases request with
  | setFile file => exact h.ofBlocks rfl rfl id
  | setParsingModule on => exact h.ofBlocks rfl rfl id
  | importSymbol name type library => exact h.importSymbol name type library
  | addClass c =>
    simp only [Session.serve, addClass]
    cases s.classes.append? c with
    | none => exact h
    | some classes => exact h.ofBlocks rfl rfl id
  | addMethod cls p =>
    simp only [Session.serve, addMethod]
    cases s.classes.get? cls with
    | none => exact h
    | some c => exact h.ofBlocks rfl rfl id
  | addProcedure p => exact h.ofBlocks rfl rfl id
  | compile unit dialect => exact h.compile unit dialect
  | watchExpression id node => exact h.watchExpression id node

theorem chart_of_block {id : Nat} {b : Block} (hb : s.block? id = some b) :
    s.chart 0 [] id = b.graph.toList.map GraphNode.core := by simp [chart, hb]

/-- In a session whose nodes are in order, those of each block are well formed. -/
theorem Charted.block (h : s.Charted 0 []) {b : Block} (hb : b ∈ s.blocks) : b.WellCharted := by
  obtain ⟨id, hid⟩ := Array.mem_iff_getElem?.mp hb
  have hblock : s.block? id = some b := hid
  have hchart := chart_of_block hblock
  have hnodes (n : GraphNode) (hn : n ∈ b.graph) :
      n.isSealed = true ∧ n.block = id ∧ Computed b.code n := by
    have hcore : n.core ∈ s.chart 0 [] id := by
      rw [hchart]
      exact List.mem_map_of_mem (Array.mem_toList_iff.mpr hn)
    obtain ⟨hsealed, hplace, hcomputed⟩ := h.nodes id b hblock _ hcore
    exact ⟨hsealed, hplace, hcomputed.congr rfl⟩
  have hordered := h.ordered id
  rw [hchart, List.pairwise_map] at hordered
  refine ⟨fun n hn => (hnodes n hn).1, fun n hn => ?_, fun n hn => (hnodes n hn).2.2.range,
    fun n hn => (hnodes n hn).2.2, hordered, fun hd => ?_⟩
  · rw [h.placed id b hblock]
    exact (hnodes n hn).2.1
  · have hempty := h.imperative id b hblock hd
    rw [hchart] at hempty
    simpa using hempty

theorem Charted.nodup (h : s.Charted 0 []) :
    (s.blocks.toList.flatMap fun b => b.graph.toList.map GraphNode.uid).Nodup := by
  rw [List.Nodup, List.pairwise_flatMap]
  refine ⟨fun b hb => ?_, List.pairwise_iff_getElem.mpr fun i j hi hj hij m hm n hn heq => ?_⟩
  · rw [List.pairwise_map]
    exact (h.block (Array.mem_toList_iff.mp hb)).ordered.imp fun hmn => Nat.ne_of_lt hmn.2
  · have hchart {id : Nat} (hid : id < s.blocks.toList.length) {k : GraphNode}
        (hk : k ∈ s.blocks.toList[id].graph.toList) : k.core ∈ s.chart 0 [] id := by
      have hb : s.block? id = some s.blocks.toList[id] := by
        simp [block?, Array.length_toList ▸ hid]
      rw [chart_of_block hb]
      exact List.mem_map_of_mem hk
    obtain ⟨m, hm', rfl⟩ := List.mem_map.mp hm
    obtain ⟨n, hn', rfl⟩ := List.mem_map.mp hn
    have := h.apart i j _ (hchart hi hm') _ (hchart hj hn') heq
    omega

-- The chain in the middle is split into three statements.
example :
    let name (x : String) : Node := .identifier (.plain x .nil)
    let unit : List Node :=
      [.assignment (name "a") (.literal .int "1" .nil),
       .assignment (name "y") (.join (name "a") (name "b")), .ret (some (name "a")) .nil]
    (((new { fullSsa := true }).serveAll [.compile unit .associative]).2.blocks.toList.map fun b =>
      b.graph.toList.map fun n => (n.uid, n.startPc, n.endPc)) =
        [[(0, 0, 0), (1, 6, 6), (2, 12, 14), (3, 20, 20), (4, 26, 26)]] := by decide +kernel

end Session

end Diglot
