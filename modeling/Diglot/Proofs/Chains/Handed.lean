import Diglot.Proofs.Chains.Relayed

/-! # The nodes of a split chain

The assignment of a chain that is split adds a row of nodes to its block. All but the last write a variable that is
made up for the row, each node reads the variable that the one before it wrote, and the last one writes the target
(`Cascades`). This is so for every chain that comes to its end without a halt (`split_chain_cascades`).

What the factors leave behind is `Relayed`. Here it is followed up to the end of the statement: the nodes that were
held back become part of the program (`quiet_of_commits`), where the first of them may have got literals on the way.
-/

set_option autoImplicit false

namespace Diglot

open Lowering

namespace Temporary

variable {y : Temporary} {s t : Session} {code : List Instruction}

theorem IsOnly.congr (h : y.IsOnly s) (hnames : s.SameNames t) : y.IsOnly t :=
  ⟨(hnames.symbol?_eq y.ref).trans h.symbol, h.named, fun r x hx => h.only r x ((hnames.symbol?_eq r).symm.trans hx)⟩

theorem IsHanded.congr (h : y.IsHanded s code) (hnames : s.SameNames t) : y.IsHanded t code := by
  obtain ⟨before, pop, between, push, after, hcode, hpop, hpush, hothers⟩ := h
  refine ⟨before, pop, between, push, after, hcode, hpop, hpush, fun i hi => (hothers i hi).imp_right ?_⟩
  rintro ⟨r, x, hr, hx, haccess⟩
  exact ⟨r, x, hr, (hnames.symbol?_eq r).trans hx, haccess⟩

end Temporary

/-! ## Nodes that become part of the program -/

namespace GraphNode

variable {n : GraphNode} {ns : List GraphNode} {ys : List Temporary} {y : Temporary} {source : Option Temporary}

/-- Literals are gathered in paths that are there, and not in what is written. -/
theorem WritesOnly.tacked (h : n.WritesOnly y) (read written : List Segment) : (n.tacked read written).WritesOnly y := h

/-- The node as a part of the program. -/
def committed (n : GraphNode) : GraphNode := { n with isSealed := true }

theorem WritesOnly.committed (h : n.WritesOnly y) : n.committed.WritesOnly y := h

theorem ReadsFrom.committed (h : n.ReadsFrom source) : n.committed.ReadsFrom source := h

/-- Where nothing is handed on, nothing has to be read. -/
theorem readsFrom_none (n : GraphNode) : n.ReadsFrom none := fun y hy => absurd hy (Option.not_mem_none y)

theorem writesOnly_committed (h : List.Forall₂ WritesOnly ys ns) (read written : List Segment) :
    List.Forall₂ WritesOnly ys ((onFirst (GraphNode.tacked read written) ns).map committed) := by
  cases h with
  | nil => exact .nil
  | cons hfirst hrest =>
    refine .cons (hfirst.tacked read written).committed ?_
    exact List.forall₂_map_right_iff.mpr (hrest.imp fun _ _ h => h.committed)

/-- The literals that the first node gets make no difference, since nothing was handed on to it. -/
theorem readsFrom_committed (h : List.Forall₂ ReadsFrom (none :: ys.map some) ns) (read written : List Segment) :
    List.Forall₂ ReadsFrom (none :: ys.map some) ((onFirst (GraphNode.tacked read written) ns).map committed) := by
  cases h with
  | cons hfirst hrest =>
    refine .cons (readsFrom_none _) ?_
    exact List.forall₂_map_right_iff.mpr (hrest.imp fun _ _ h => h.committed)

end GraphNode

namespace Lowering

variable {f : Frame} {s t u : State} {n : GraphNode} {ns : List GraphNode} {value target : Node} {segments : List Node}
  {span : Span}

/-- From `s` to `t` nodes became part of the program, and nothing else happened. -/
structure Rests (s t : State) : Prop where
  names : s.session.SameNames t.session
  stream : ∀ id, t.session.stream id = s.session.stream id
  pointers : t.pointers = s.pointers
  held : t.held = s.held

theorem Rests.refl (s : State) : Rests s s := ⟨.refl _, fun _ => rfl, rfl, rfl⟩

theorem Rests.trans (h : Rests s t) (h' : Rests t u) : Rests s u :=
  ⟨h.names.trans h'.names, fun id => (h'.stream id).trans (h.stream id), h'.pointers.trans h.pointers,
    h'.held.trans h.held⟩

theorem rests_of_commit (hrun : commit n f s = .ok () t) : Rests s t := by
  have hnoted : s.session.SameNames (s.session.note .trace .graph ("sealed " ++ n.text)) :=
    ⟨rfl, rfl, rfl, rfl, rfl, rfl⟩
  rw [run_commit] at hrun
  split at hrun
  · cases hrun
  rw [modifyBlock_run] at hrun
  split at hrun
  · cases hrun
    refine ⟨hnoted.trans (Session.sameNames_modifyBlock ?_ _ _), fun id => Session.stream_modifyBlock ?_ _ _ id, rfl, rfl⟩
    · exact fun _ => rfl
    · exact fun _ => rfl
  · cases hrun

theorem rests_of_commits (hrun : ns.forM commit f s = .ok () t) : Rests s t := by
  induction ns generalizing s with
  | nil =>
    cases hrun
    exact .refl _
  | cons n rest ih =>
    obtain ⟨⟨⟩, u, hfirst, hrest⟩ := bind_eq_ok.mp hrun
    exact (rests_of_commit hfirst).trans (ih hrest)

/-! ## Chains that begin with a class -/

/-- The segment is the name of a class, which no variable hides. -/
def Sight.NamesClass (v : Sight) (n : Node) : Prop :=
  ∃ root, n = .identifier root ∧ v.resolve root.name = .unbound ∧ (v.session.classes.indexOf? root.name).isSome = true

theorem splitAnchor?_isSome_iff {v : Sight} {root second : Node} {rest : List Node} :
    (splitAnchor? v (root :: second :: rest)).isSome = true ↔ v.NamesClass root := by
  unfold splitAnchor? Sight.NamesClass
  cases root with
  | identifier ident =>
    cases hfound : v.resolve ident.name with
    | unbound => simp [hfound]
    | found r => simp [hfound]
    | inaccessible r => simp [hfound]
  | _ => simp

/-- A chain has two segments at least. -/
theorem segments_of_isSplit {o : Options} (hsplit : isSplit o value = true) (hsegments : value.segments = .ok segments) :
    ∃ root second rest, segments = root :: second :: rest := by
  cases value with
  | member left right op lastFactor span =>
    rw [Node.segments] at hsegments
    split at hsegments
    · split at hsegments
      · cases hsegments
      next ls hls =>
      split at hsegments
      · cases hsegments
      next rs hrs =>
      cases hsegments
      obtain ⟨root, ls', rfl⟩ := List.exists_cons_of_ne_nil (Node.segments_ne_nil hls)
      obtain ⟨second, rs', rfl⟩ := List.exists_cons_of_ne_nil (Node.segments_ne_nil hrs)
      cases ls' with
      | nil => exact ⟨root, second, rs', rfl⟩
      | cons third rest => exact ⟨root, third, rest ++ second :: rs', rfl⟩
    · cases hsegments
  | _ => cases hsplit

/-! ## Whole statements -/

/-- The assignment of a chain led from `s` to `t` and put nodes behind those of its block: some that write the variables
`ys`, which are made up for it, and one that writes the target. -/
structure Cascades (f : Frame) (target : Node) (segments : List Node) (ys : List Temporary) (ns : List GraphNode)
    (last : GraphNode) (s t : State) : Prop where
  count : ∀ root ∈ segments.head?, ((sightFrom f s.session).NamesClass root → ys.length + 1 = segments.length) ∧
    (¬ (sightFrom f s.session).NamesClass root → ys.length = segments.length)
  nodes : t.session.nodes f.block = s.session.nodes f.block ++ (ns ++ [last]).toArray
  row : Temporary.InRow s.session.counters.temporaries t.session ys
  writes : List.Forall₂ GraphNode.WritesOnly ys ns
  reads : List.Forall₂ GraphNode.ReadsFrom (none :: ys.map some) (ns ++ [last])
  isTemporary : last.isTemporary = false
  updated : ∃ path, last.updated = some path ∧ (sightFrom f t.session).Targets target path
  code : ∃ code, s.session.Puts f.block code t.session ∧ ∀ y ∈ ys, y.IsHanded t.session code
  others : ∀ id, id < s.session.blocks.size → id ≠ f.block → t.session.stream id = s.session.stream id
  pointers : t.pointers = []
  held : t.held = []

/-- The factors of a chain, and the chain as a whole. -/
theorem relayed_of_splitChain (hf : f.HasStatements) (hforward : f.IsPlain) {k : Nat} (hs : f.Splits k s.session)
    (hpointers : s.pointers = []) (hpath : value.isPath = true) (hsegments : value.segments = .ok segments)
    {root second : Node} {behind : List Node} (hlong : segments = root :: second :: behind)
    (hvalue : value.IsNamedPlain) (htarget : target.IsNamedPlain)
    (hrun : splitChain target segments span f s = .ok () t) :
    ∃ ys ns last, Relayed f k target none ys ns last s t ∧
      ((sightFrom f s.session).NamesClass root → ys.length + 1 = segments.length) ∧
      (¬ (sightFrom f s.session).NamesClass root → ys.length = segments.length) := by
  obtain ⟨factor, anchor, front, rest, hparts, hanchor, hfactor, hfactors⟩ := factors_of_splitChain hrun
  have hplain : factor.IsNamedPlain := isNamedPlain_first hpath hsegments hvalue
    (hparts ▸ List.prefix_append ..) (hfactor.imp And.right And.right)
  have hfront : segments = s.pointers ++ front ++ rest := by rw [hpointers, List.nil_append, hparts]
  have hread (w : State) (type : Ty) (w' : State) (hw : f.Declares IsPlainName s.session w.session)
      (_ : { f with anchor }.Proceeds w) (hrun : expression factor { f with anchor, isTracked := true } w = .ok type w') :
      Fetches k f.block none w w' := by
    have hlooks := (hw.site (g := { f with anchor, isTracked := true }) rfl).looksOut
    refine fetches_old (f := { f with anchor, isTracked := true }) hlooks hw.listed (fun j hj i c hc => ?_) hplain hrun
    exact hs.classes j hj i c (hw.classes ▸ hc)
  obtain ⟨ys, ns, last, hlength, hrelayed⟩ := hfactors.relayed (s := { s with pointers := s.pointers ++ front }) hf hforward
    hpath hsegments hvalue htarget hfront hs hread
  have hnames : anchor.isSome = true ↔ (sightFrom f s.session).NamesClass root := by
    rw [hanchor, hlong]
    exact splitAnchor?_isSome_iff
  refine ⟨ys, ns, last, ⟨hrelayed.row, hrelayed.code, hrelayed.held, hrelayed.nodes, hrelayed.blocks, hrelayed.writes,
    hrelayed.reads, hrelayed.isTemporary, hrelayed.updated, hrelayed.declares⟩, ?_⟩
  obtain ⟨rfl, rfl⟩ | ⟨hsome, first, next, rfl, -⟩ := hfactor
  · refine ⟨fun h => absurd (hnames.mpr h) Bool.false_ne_true, fun _ => ?_⟩
    rw [hlength, hparts]
    simp
  · refine ⟨fun _ => ?_, fun h => absurd (hnames.mp hsome) h⟩
    rw [hlength, hparts]
    simp

/-- An assignment that splits its value puts a row of nodes behind those of its block. Where the chain begins with a
class, its first two segments are one factor; else each segment is one. -/
theorem split_chain_cascades (hf : f.HasStatements) (hforward : f.IsPlain) (hlooks : f.LooksOut s.session)
    (hl : s.session.Listed) (hwatching : s.session.isWatching = false) (hspare : s.session.HasSpare)
    (hsplit : isSplit s.session.options value = true) (hvalue : value.IsNamedPlain) (htarget : target.IsNamedPlain)
    (hrun : lowerUpdate target value span f s = .ok () t) :
    ∃ segments ys ns last, value.segments = .ok segments ∧ 2 ≤ segments.length ∧
      Cascades f target segments ys ns last s t := by
  have hothers : ∀ id, id < s.session.blocks.size → id ≠ f.block → t.session.stream id = s.session.stream id :=
    fun id hid hne => ((Evolving.lowerUpdate target value span).run hrun).stream_of_ne hwatching hid hne
  obtain ⟨⟨⟩, s₁, hforget, hrun⟩ := bind_eq_ok.mp hrun
  cases hforget
  obtain ⟨session, s₂, hsession, hrun⟩ := bind_eq_ok.mp hrun
  cases hsession
  rw [if_pos hsplit] at hrun
  obtain ⟨segments, s₂, hflat, hrun⟩ := bind_eq_ok.mp hrun
  obtain ⟨hsegments, rfl⟩ := chainSegments_run hflat
  obtain ⟨⟨⟩, s₃, hcleared, hrun⟩ := bind_eq_ok.mp hrun
  cases hcleared
  obtain ⟨⟨⟩, u, hchain, hrun⟩ := bind_eq_ok.mp hrun
  obtain ⟨state, u', hstate, hrun⟩ := bind_eq_ok.mp hrun
  cases hstate
  obtain ⟨⟨⟩, u', hclear, hcommit⟩ := bind_eq_ok.mp hrun
  cases hclear
  obtain ⟨root, second, behind, hlong⟩ := segments_of_isSplit hsplit hsegments
  have hsplits : f.Splits s.session.counters.temporaries s.session :=
    ⟨hlooks, hl, ⟨hwatching, hspare, Nat.le_refl _⟩, fun j hj => (hspare j hj).classes⟩
  obtain ⟨ys, ns, last, hrelayed, hcount⟩ := relayed_of_splitChain
    (s := { s with lastCallee := none, pointers := [], held := [] }) hf hforward hsplits rfl (isPath_of_isSplit hsplit)
    hsegments hlong hvalue htarget hchain
  obtain ⟨read, written, -, hheld⟩ := hrelayed.held
  have hheld : u.held = onFirst (GraphNode.tacked read written) (ns ++ [last]) := hheld
  rw [hheld] at hcommit
  have hrests := rests_of_commits hcommit
  have hnames : u.session.SameNames t.session := hrests.names
  have hblocks : ∀ n ∈ onFirst (GraphNode.tacked read written) (ns ++ [last]), n.block = f.block := by
    intro n hn
    obtain hn | ⟨m, hm, rfl⟩ := mem_onFirst hn
    · exact hrelayed.blocks n hn
    · exact hrelayed.blocks m hm
  have hnodes := nodes_of_commits f.block hblocks hcommit
  have hbefore : u.session.nodes f.block = s.session.nodes f.block := congrFun hrelayed.nodes f.block
  -- The first node is one that writes a variable, so that the last one gets no literals.
  have hfirst : ns ≠ [] := by
    rintro rfl
    obtain rfl := List.forall₂_nil_right_iff.mp hrelayed.writes
    obtain ⟨hclass, hnone⟩ := hcount
    rw [hlong] at hclass hnone
    by_cases hroot : (sightFrom f s.session).NamesClass root
    · cases hclass hroot
    · cases hnone hroot
  have hsides : onFirst (GraphNode.tacked read written) (ns ++ [last]) =
      onFirst (GraphNode.tacked read written) ns ++ [last] := by
    cases ns with
    | nil => exact absurd rfl hfirst
    | cons n rest => rfl
  have hcommitted : (onFirst (GraphNode.tacked read written) (ns ++ [last])).map GraphNode.committed =
      (onFirst (GraphNode.tacked read written) ns).map GraphNode.committed ++ [last.committed] := by
    rw [hsides, List.map_append]
    rfl
  refine ⟨segments, ys, (onFirst (GraphNode.tacked read written) ns).map GraphNode.committed, last.committed, hsegments, ?_, ?_⟩
  · rw [hlong]
    exact Nat.le_add_left 2 _
  refine ⟨fun n hn => ?_, ?_, ?_, GraphNode.writesOnly_committed hrelayed.writes read written, ?_, hrelayed.isTemporary, ?_, ?_,
    hothers, hrests.pointers, hrests.held⟩
  · rw [hlong] at hn
    obtain rfl := Option.some.inj hn
    exact hcount
  · rw [← hcommitted]
    rw [← hbefore]
    exact hnodes
  · exact ⟨hrelayed.row.increasing, hrelayed.row.behind, fun y hy => (hrelayed.row.isOnly y hy).congr hnames⟩
  · rw [← hcommitted]
    exact GraphNode.readsFrom_committed hrelayed.reads read written
  · obtain ⟨path, hpath, htargets⟩ := hrelayed.updated
    exact ⟨path, hpath, htargets.congr hnames⟩
  · obtain ⟨lead, code, hputs, hlead, hcode⟩ := hrelayed.code
    cases hlead
    have hend : u.session.Puts f.block [] t.session := Session.puts_of_stream (hrests.stream f.block)
    refine ⟨code, by simpa using hputs.trans hend, fun y hy => ?_⟩
    exact (Temporary.isHanded_of_handsOn hcode hrelayed.row y hy).congr hnames

/-- A chain is named plainly if its segments are, and what is inside of them. -/
theorem isNamedPlain_of_operands {n : Node} (hsegments : ∀ segments, n.segments = .ok segments →
      ∀ ident, Node.identifier ident ∈ segments.map Node.unwrap → IsPlainName ident.name)
    (hoperands : ∀ m ∈ n.operands, m.IsNamedPlain) : n.IsNamedPlain := by
  intro inside h
  cases h with
  | whole _ hinside => exact hsegments inside hinside
  | operand hm h => exact hoperands _ hm inside h

theorem isNamedPlain_plain {name : String} (h : IsPlainName name) :
    (Node.identifier (.plain name span)).IsNamedPlain := by
  refine isNamedPlain_of_operands (fun segments hsegments ident hident => ?_) fun m hm => absurd hm List.not_mem_nil
  cases hsegments
  cases List.mem_singleton.mp hident
  exact h

/-- The chain `p.f().y` is split into three factors, and `x` is written behind them. -/
theorem method_chain_cascades :
    let s : State := { session := (chainSession "int").splitting }
    let f : Frame := { block := 0, scope := .global, dialect := .associative }
    let x := Node.identifier (.plain "x" .nil)
    let t := ending (lowerUpdate x chainSample .nil f s)
    ∃ segments ys ns last, chainSample.segments = .ok segments ∧ 2 ≤ segments.length ∧
      Cascades f x segments ys ns last s t := by
  intro s f x t
  have hused : (chainSession "int").Used := used_chainSession "int"
  have hlisted : s.session.Listed := hused.listed.congr rfl rfl
  have hspare : s.session.HasSpare := (hasSpare_chainSession "int").congr rfl rfl (Nat.le_refl _)
  have hrun := eq_ok_ending (m := lowerUpdate x chainSample .nil) (f := f) (s := s) (by decide +kernel)
  change lowerUpdate _ _ _ f s = .ok () t at hrun
  have hlooks : f.LooksOut (chainSession "int") := ⟨chainSession_stands.1, nofun⟩
  have hlooks : f.LooksOut s.session := hlooks.congr ⟨rfl, rfl, rfl, rfl, rfl, rfl⟩
  have hwatching : s.session.isWatching = false := chainSession_stands.2.1
  have hplain (name : String) (h : Text.isTemporaryName name = false) : IsPlainName name := h
  have hvalue : chainSample.IsNamedPlain := by
    refine isNamedPlain_of_operands (fun segments hsegments ident hident => ?_) fun m hm => ?_
    · cases hsegments
      obtain hp | hrest := List.mem_cons.mp hident
      · cases hp
        exact hplain "p" (by decide)
      obtain hf | hrest := List.mem_cons.mp hrest
      · cases hf
      cases List.mem_singleton.mp hrest
      exact hplain "y" (by decide)
    · obtain rfl := List.mem_singleton.mp hm
      exact isNamedPlain_plain (hplain "p" (by decide))
  exact split_chain_cascades ⟨rfl, rfl, by decide⟩ (fun _ h => absurd h List.not_mem_nil) hlooks hlisted hwatching hspare
    rfl hvalue (isNamedPlain_plain (hplain "x" (by decide))) hrun

/-- Behind `q` the chain `q.u.v.x` is looked up at run time: the last node of the statement updates `q` alone. -/
theorem late_target_updates_front :
    let name (x : String) := Node.identifier (.plain x .nil)
    let target := Node.member (.member (.member (name "q") (name "u") .dot false .nil) (name "v") .dot false .nil)
      (name "x") .dot false .nil
    let unit : List Node := [.assign (name "q") (.literal .int "1" .nil) .nil,
      .assign target (.member (name "q") (name "y") .dot false .nil) .nil]
    let run := Session.compile (.new { fullSsa := true }) unit .associative
    run.1.toBool = true ∧ target.segments = .ok [name "q", name "u", name "v", name "x"] ∧
      (run.2.nodes 0).toList.map (fun n => (n.isTemporary, n.updated.map (·.map Segment.name))) =
        [(false, some ["q"]), (true, some ["%ssa_0"]), (true, some ["%ssa_1"]), (false, some ["q"])] := by
  intro name target unit run
  obtain ⟨hok, hupdated⟩ : run.1.toBool = true ∧
      (run.2.nodes 0).toList.map (fun n => (n.isTemporary, n.updated.map (·.map Segment.name))) =
        [(false, some ["q"]), (true, some ["%ssa_0"]), (true, some ["%ssa_1"]), (false, some ["q"])] := by
    decide +kernel
  exact ⟨hok, rfl, hupdated⟩

end Lowering

end Diglot
