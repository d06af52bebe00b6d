import Diglot.Proofs.Paths.Read
import Diglot.Proofs.Paths.Written
import Diglot.Proofs.Spare.Update

/-! # A store and the reads of what it wrote

A statement `t = v` of an associative block ends with a node that tells the path it writes, whether or not
its value is split (`lowerUpdate_ok`). A later statement `y = t` ends with a node that depends on the path
of `t` alone. The two paths are the same, unless the last name of `t` is stored through a setter
(`lowerUpdate_written`).
-/

set_option autoImplicit false

namespace Diglot

/-- The node that was added to the graph of a block last. -/
def Session.lastNode? (s : Session) (block : Nat) : Option GraphNode :=
  (s.block? block).bind fun b => b.graph.back?

namespace Lowering

variable {f : Frame} {s t u : State} {c d : Cursor} {idents : List Identifier} {n : GraphNode}
  {target value : Node} {span : Span}

/-! ## Nodes of a block -/

theorem commit_ok (hrun : commit n f s = .ok () t) :
    s.session.SameNames t.session ∧
      t.session.lastNode? n.block = some { n with isSealed := true } := by
  rw [run_commit] at hrun
  split at hrun
  · cases hrun
  · obtain ⟨b, u, hb, hrun⟩ := bind_eq_ok.mp hrun
    rw [run_getBlock] at hb
    split at hb
    case h_2 => cases hb
    next b' hblock =>
    cases hb
    cases hrun
    refine ⟨⟨rfl, rfl, rfl, rfl, Session.size_blocks_modifyBlock _ _ _, ?_⟩, ?_⟩
    · exact Session.header?_modifyBlock
        (g := fun b => { b with graph := b.graph.push { n with isSealed := true } }) (fun _ => rfl) _ _
    · unfold Session.lastNode?
      rw [Session.block?_modifyBlock, if_pos rfl, hblock]
      simp

/-- Of nodes that are added one after the other the last one ends up last. -/
theorem forM_commit_ok {nodes : List GraphNode} (hrun : (nodes ++ [n]).forM commit f s = .ok () t) :
    s.session.SameNames t.session ∧
      t.session.lastNode? n.block = some { n with isSealed := true } := by
  induction nodes generalizing s with
  | nil =>
    obtain ⟨⟨⟩, u, hfirst, hrun⟩ := bind_eq_ok.mp hrun
    cases hrun
    exact commit_ok hfirst
  | cons m rest ih =>
    obtain ⟨⟨⟩, u, hfirst, hrun⟩ := bind_eq_ok.mp hrun
    obtain ⟨hnames, hlast⟩ := ih hrun
    exact ⟨(commit_ok hfirst).1.trans hnames, hlast⟩

/-! ## Assignments -/

section
variable {I : Session → Prop} (hname : Spares I f (nextTemporary "%ssa_"))
  (hnode : ∀ anchor target value isTemporary isLast,
    Spares I { f with anchor } (graphStatement target value span isTemporary isLast))
include hname hnode

/-- The last node of a split chain is the one of its target, which is assigned a made-up variable. Up to then what
statements spare is spared. -/
theorem lowerFactors_ok {factor : Node} {anchor : Option Nat} {rest : List Node} (hs : I s.session)
    (hrun : lowerFactors target span factor anchor rest f s = .ok () t) :
    ∃ temporary s' n u held, I s'.session ∧ graphStatement target temporary span false false f s' = .ok n u ∧
      t = { u with held := held ++ [n] } := by
  have hhold (n : GraphNode) : Spares I f (hold n) := Sparing.modifyState fun _ => rfl
  have hpush (segments : List Node) : Spares I f (pushPointers segments) := Sparing.modifyState fun _ => rfl
  induction rest generalizing factor anchor s with
  | nil =>
    obtain ⟨_, s₁, hnamed, hrun⟩ := bind_eq_ok.mp hrun
    obtain ⟨_, s₂, hfactor, hrun⟩ := bind_eq_ok.mp hrun
    obtain ⟨_, s₃, hheld, hrun⟩ := bind_eq_ok.mp hrun
    obtain ⟨n, u, hlast, hrun⟩ := bind_eq_ok.mp hrun
    cases hrun
    have hs₂ := (hnode _ _ _ _ _).ok (hname.ok hs hnamed) hfactor
    exact ⟨_, s₃, n, u, u.held, (hhold _).ok hs₂ hheld, hlast, rfl⟩
  | cons segment rest ih =>
    obtain ⟨_, s₁, hnamed, hrun⟩ := bind_eq_ok.mp hrun
    obtain ⟨_, s₂, hfactor, hrun⟩ := bind_eq_ok.mp hrun
    obtain ⟨_, s₃, hheld, hrun⟩ := bind_eq_ok.mp hrun
    obtain ⟨_, s₄, hpushed, hrun⟩ := bind_eq_ok.mp hrun
    have hs₂ := (hnode _ _ _ _ _).ok (hname.ok hs hnamed) hfactor
    exact ih ((hpush _).ok ((hhold _).ok hs₂ hheld) hpushed) hrun

theorem splitChain_ok {segments : List Node} (hs : I s.session)
    (hrun : splitChain target segments span f s = .ok () t) :
    ∃ temporary s' n u held, I s'.session ∧ graphStatement target temporary span false false f s' = .ok n u ∧
      t = { u with held := held ++ [n] } := by
  obtain ⟨v, u, hsight, hrun⟩ := bind_eq_ok.mp hrun
  have hpushed {segments : List Node} {w : State} (hw : pushPointers segments f u = .ok () w) : I w.session := by
    have hspares : Spares I f (pushPointers segments) := Sparing.modifyState fun _ => rfl
    exact hspares.ok (Sparing.sight.ok hs hsight) hw
  cases segments with
  | nil => cases hrun
  | cons root rest =>
    cases hanchor : splitAnchor? v (root :: rest) with
    | none =>
      rw [hanchor] at hrun
      obtain ⟨_, _, hpush, hrun⟩ := bind_eq_ok.mp hrun
      exact lowerFactors_ok hname hnode (hpushed hpush) hrun
    | some cls =>
      rw [hanchor] at hrun
      cases rest with
      | nil =>
        obtain ⟨_, _, hpush, hrun⟩ := bind_eq_ok.mp hrun
        exact lowerFactors_ok hname hnode (hpushed hpush) hrun
      | cons second rest =>
        obtain ⟨_, _, hpush, hrun⟩ := bind_eq_ok.mp hrun
        exact lowerFactors_ok hname hnode (hpushed hpush) hrun

/-- The last node of an assignment is the one of its target. Without splitting it is the only one. Behind its
statement the nodes are only added to the block. -/
theorem lowerUpdate_last (hs : I s.session)
    (hrun : lowerUpdate target value span f s = .ok () t) :
    ∃ value' s' n u u' held, I s'.session ∧ graphStatement target value' span false false f s' = .ok n u ∧
      u'.session = u.session ∧ u'.node = u.node ∧ (held ++ [n]).forM commit f u' = .ok () t ∧
      (s.session.isWatching = false → ∀ m ∈ held, m.block = f.block) ∧
      (s.session.options.fullSsa = false → value' = value ∧ s' = { s with lastCallee := none }) := by
  obtain ⟨⟨⟩, s₁, hforget, hrun⟩ := bind_eq_ok.mp hrun
  cases hforget
  obtain ⟨session, s₂, hsession, hrun⟩ := bind_eq_ok.mp hrun
  cases hsession
  rw [run_ite] at hrun
  split at hrun
  · next hsplit =>
    obtain ⟨segments, s₂, hsegments, hrun⟩ := bind_eq_ok.mp hrun
    obtain ⟨⟨⟩, s₃, hcleared, hrun⟩ := bind_eq_ok.mp hrun
    obtain ⟨⟨⟩, s₄, hchain, hrun⟩ := bind_eq_ok.mp hrun
    obtain ⟨state, s₅, hstate, hrun⟩ := bind_eq_ok.mp hrun
    cases hstate
    obtain ⟨⟨⟩, s₆, hclear, hrun⟩ := bind_eq_ok.mp hrun
    cases hclear
    obtain ⟨-, rfl⟩ := chainSegments_run hsegments
    cases hcleared
    obtain ⟨temporary, s', n, u, held, hs', hlast, rfl⟩ := splitChain_ok hname hnode (by exact hs) hchain
    refine ⟨temporary, s', n, u, { u with pointers := [], held := [] }, held, hs', hlast, rfl, rfl, hrun,
      fun hwatch m hm => ?_, fun hoff => ?_⟩
    · have hown := HoldsOwn.splitChain (f := f) target segments span
        { s with pointers := [], held := [], lastCallee := none } hwatch fun _ h => absurd h List.not_mem_nil
      rw [hchain] at hown
      exact hown.2 m (List.mem_append_left _ hm)
    unfold isSplit at hsplit
    split at hsplit
    · simp [hoff] at hsplit
    · cases hsplit
  · obtain ⟨n, u, hlast, hcommit⟩ := bind_eq_ok.mp hrun
    refine ⟨value, { s with lastCallee := none }, n, u, u, [], hs, hlast, rfl, rfl, ?_,
      fun _ _ h => absurd h List.not_mem_nil, fun _ => ⟨rfl, rfl⟩⟩
    change (commit n >>= fun _ => pure ()) f u = _
    rw [run_bind, hcommit]
    rfl

end

/-- Behind the statement of its target an assignment only adds nodes, of which that of the target is the last. -/
theorem lowerUpdate_ok (hrun : lowerUpdate target value span f s = .ok () t) :
    ∃ value' s' n u, graphStatement target value' span false false f s' = .ok n u ∧
      u.session.SameNames t.session ∧ t.session.lastNode? n.block = some { n with isSealed := true } ∧
      (s.session.options.fullSsa = false → value' = value ∧ s' = { s with lastCallee := none }) := by
  have hany {α : Type} (g : Frame) (m : Lower α) : Spares (fun _ => True) g m :=
    fun _ _ => ⟨trivial, fun _ _ _ => trivial⟩
  obtain ⟨value', s', n, u, u', held, -, hnode, hsession, -, hcommit, -, hwhole⟩ :=
    lowerUpdate_last (hany f _) (fun _ _ _ _ _ => hany _ _) trivial hrun
  obtain ⟨hnames, hlast⟩ := forM_commit_ok hcommit
  rw [hsession] at hnames
  exact ⟨value', s', n, u, hnode, hnames, hlast, hwhole⟩

theorem block_graphStatement {isTemporary isLast : Bool}
    (hrun : graphStatement target value span isTemporary isLast f s = .ok n t) : n.block = f.block := by
  obtain ⟨v, type, w, w', path, x, _, _, -, hvalue, hbetween, -, hstore, -, rfl⟩ := graphStatement_ok hrun
  have hvalued := (Gentle.ofMild (.expression value)).ok hvalue
  have hstored := (Gentle.ofMild (.assignTo _ _)).ok hstore
  exact ((hvalued.trans hbetween).trans hstored).node.2.1

/-- The node of a statement tells the path that its target writes. -/
theorem graphStatement_written (hf : f.HasStatements)
    (htarget : target.segments = .ok (idents.map .identifier)) (hplain : ∀ i ∈ idents, i.dims = [])
    (hfollow : (sightFrom f t.session).follow? (.start (idents.length == 1)) idents = some d)
    {isTemporary isLast : Bool}
    (hrun : graphStatement target value span isTemporary isLast f s = .ok n t) :
    n.updated = some ((sightFrom f t.session).written idents d.path) := by
  obtain ⟨v, type, w, w', path, x, _, _, -, -, -, -, hstore, hkept, rfl⟩ := graphStatement_ok hrun
  have hnames := (hkept.inert rfl).1
  have htracked : Frame.HasStatements { f with isTracked := true } := ⟨hf.own, hf.anchor, hf.notVoid⟩
  rw [Sight.follow?_congr hnames] at hfollow
  rw [Sight.written_congr hnames]
  rw [← Sight.written_tracked]
  exact congrArg some (assignTo_written (f := { f with isTracked := true }) htracked htarget hplain
    ((Sight.follow?_frame (f := f) (g := { f with isTracked := true }) rfl rfl _ _ _).trans hfollow) hstore)

/-- What a store into a chain writes is what reading the chain depends on, unless the store goes through a
setter, whose segment names no symbol. -/
theorem Sight.written_eq_iff {v : Sight} (hplain : ∀ i ∈ idents, i.dims = [])
    (hfollow : v.follow? (.start (idents.length == 1)) idents = some d) :
    v.written idents d.path = d.path ↔ v.setterOf? idents = none := by
  unfold written
  cases hsetter : v.setterOf? idents with
  | none => simp
  | some q =>
    simp only [reduceCtorEq, iff_false]
    obtain ⟨property, hlast, -⟩ := Option.bind_eq_some_iff.mp hsetter
    obtain ⟨init, rfl⟩ := List.getLast?_eq_some_iff.mp hlast
    have hne : init ≠ [] := by
      rintro rfl
      rw [List.nil_append, setterOf?_singleton] at hsetter
      cases hsetter
    have hlength := List.length_pos_iff.mpr hne
    rw [follow?_concat] at hfollow
    obtain ⟨c, hinit, hstep⟩ := Option.bind_eq_some_iff.mp hfollow
    obtain ⟨hlate, -, -, hdepth, -⟩ := follow?_cursor hinit rfl
    have hbehind : c.depth ≠ 0 := by
      rw [hdepth]
      omega
    obtain ⟨cls, r, x, -, -, -, hpath⟩ := stepName?_member hbehind hlate (hplain property (by simp)) hstep
    rw [hpath, onLast_concat]
    simp [Segment.ofName]

/-! ## The law -/

/-- A statement that stores into a chain of names ends with a node that tells what it writes, and a
statement that later reads the chain into a plain name ends with a node that depends on one path. The two
paths are the same unless the store goes through a setter. -/
theorem lowerUpdate_written (hf : f.HasStatements) {s₁ u₁ : State} {y : Identifier} {span' : Span}
    (htarget : target.segments = .ok (idents.map .identifier)) (hplain : ∀ i ∈ idents, i.dims = [])
    (hwrite : lowerUpdate target value span f s = .ok () s₁)
    (hstatic : (sightFrom f s₁.session).follow? (.start (idents.length == 1)) idents = some d)
    (hsame : s₁.session.SameNames u.session) (hwhole : u.session.options.fullSsa = false)
    (hy : y.dims = []) (hread : lowerUpdate (.identifier y) target span' f u = .ok () u₁) :
    ∃ n m, s₁.session.lastNode? f.block = some n ∧ u₁.session.lastNode? f.block = some m ∧
      m.dependencies = [d.path] ∧
      n.updated = some ((sightFrom f s₁.session).written idents d.path) ∧
      (n.updated = some d.path ↔ (sightFrom f s₁.session).setterOf? idents = none) := by
  obtain ⟨value', s', n, w, hwritten, hw, hlast, -⟩ := lowerUpdate_ok hwrite
  obtain ⟨target', u', m, w', hreads, -, hlast', hwhole'⟩ := lowerUpdate_ok hread
  obtain ⟨rfl, rfl⟩ := hwhole' hwhole
  rw [block_graphStatement hwritten] at hlast
  rw [block_graphStatement hreads] at hlast'
  have hupdated : n.updated = some ((sightFrom f s₁.session).written idents d.path) := by
    have hwstatic := hstatic
    rw [Sight.follow?_congr hw] at hwstatic
    rw [Sight.written_congr hw]
    exact graphStatement_written hf htarget hplain hwstatic hwritten
  have hdependencies : m.dependencies = [d.path] := by
    have hustatic := hstatic
    rw [← Sight.follow?_congr hsame] at hustatic
    exact dependencies_of_read (s := { u with lastCallee := none }) hf.anchor hy hplain htarget hustatic hreads
  refine ⟨_, _, hlast, hlast', hdependencies, hupdated, ?_⟩
  dsimp only
  rw [hupdated, Option.some.injEq]
  exact Sight.written_eq_iff hplain hstatic

/-- The static member `x` of a class is stored through an object, and read from it by the same path. -/
theorem static_member_written :
    let member : Variable :=
      { name := "x", type := .var, value := none, isStatic := true, access := .isPublic, region := .stack
        span := .nil }
    let cls : Node := .classDecl
      { name := "C", base := none, members := [member], methods := [], attributes := [], span := .nil }
    let object : Node := .call { name := "C", args := [], dims := [], guides := [], span := .nil }
    let unit := [cls, .assign (.identifier (.plain "a" .nil)) object .nil]
    let target : Node :=
      .member (.identifier (.plain "a" .nil)) (.identifier (.plain "x" .nil)) .dot false .nil
    let f : Frame := { block := 0, scope := .global, dialect := .associative }
    let s : State := { session := (Session.compile (.new {}) unit .associative).2 }
    let s₁ := ending (lowerUpdate target (.literal .int "1" .nil) .nil f s)
    let u₁ := ending (lowerUpdate (.identifier (.plain "y" .nil)) target .nil f s₁)
    let path := [Segment.ofName "a" (some ⟨.block 0, 1⟩) none, .ofName "x" (some ⟨.block 0, 0⟩) (some 12)]
    ∃ n m, s₁.session.lastNode? 0 = some n ∧ u₁.session.lastNode? 0 = some m ∧ m.dependencies = [path] ∧
      n.updated = some path := by
  intro member cls object unit target f s s₁ u₁ path
  let idents := [Identifier.plain "a" .nil, Identifier.plain "x" .nil]
  have htarget : target.segments = .ok (idents.map .identifier) := rfl
  have hplain : ∀ i ∈ idents, i.dims = [] := by decide
  have hown : f.HasStatements := ⟨rfl, rfl, by decide⟩
  have hwrite := eq_ok_ending (m := lowerUpdate target (.literal .int "1" .nil) .nil) (f := f) (s := s)
    (by decide +kernel)
  have hread := eq_ok_ending (m := lowerUpdate (.identifier (.plain "y" .nil)) target .nil) (f := f)
    (s := s₁) (by decide +kernel)
  change lowerUpdate _ _ _ f s = .ok () s₁ at hwrite
  change lowerUpdate _ _ _ f s₁ = .ok () u₁ at hread
  have hstatic : ((sightFrom f s₁.session).follow? (.start false) idents).map Cursor.path = some path := by
    decide +kernel
  have hsetter : (sightFrom f s₁.session).setterOf? idents = none := by
    decide +kernel
  have hwhole : s₁.session.options.fullSsa = false := by
    decide +kernel
  clear_value s₁ u₁
  obtain ⟨d, hd, hpath⟩ := Option.map_eq_some_iff.mp hstatic
  obtain ⟨n, m, hn, hm, hdependencies, -, hupdated⟩ :=
    lowerUpdate_written hown htarget hplain hwrite hd (.refl _) hwhole rfl hread
  exact ⟨n, m, hn, hm, hpath ▸ hdependencies, hpath ▸ hupdated.mpr hsetter⟩

/-- A member that is not static is stored through its setter, and what the store writes is not the path
that reading the member depends on. -/
theorem setter_path_unmatched :
    let member : Variable :=
      { name := "x", type := .var, value := none, isStatic := false, access := .isPublic, region := .stack
        span := .nil }
    let cls : Node := .classDecl
      { name := "C", base := none, members := [member], methods := [], attributes := [], span := .nil }
    let object : Node := .call { name := "C", args := [], dims := [], guides := [], span := .nil }
    let target : Node :=
      .member (.identifier (.plain "a" .nil)) (.identifier (.plain "x" .nil)) .dot false .nil
    let unit := [cls, .assign (.identifier (.plain "a" .nil)) object .nil,
      .assign target (.literal .int "1" .nil) .nil, .assign (.identifier (.plain "y" .nil)) target .nil]
    let s := (Session.compile (.new {}) unit .associative).2
    let root := Segment.ofName "a" (some ⟨.block 0, 0⟩) none
    s.diagnostics.size = 0 ∧
      (s.block? 0).map (fun b => (b.graph[1]?.bind GraphNode.updated, b.graph[2]?.map GraphNode.dependencies)) =
        some (some [root, .ofName "x" none (some 12)],
          some [[root, .ofName "x" (some ⟨.cls 12, 0⟩) (some 12)]]) := by
  decide +kernel

end Lowering

end Diglot
