import Diglot.Proofs.Chains.Whole
import Diglot.Proofs.Harvest.Statement
import Diglot.Proofs.Reads.Target

/-! # Where literal subscripts end up

An input of a node is *shown* by a chain in the statement: it begins with the segments of that chain, or with a
made-up variable that holds what was before them (`Path.ShowsPart`), and has the literal subscripts of that chain
only. This holds of all nodes that a statement adds (`GraphNode.Faithful`), except that the first node of a chain
that is split gets the literals that are met behind its factor put behind its last input (`nodes_of_statement`),
whichever chain they belong to (`literal_of_argument_strays`).
-/

set_option autoImplicit false

namespace Diglot

/-! ## Inputs that are shown by chains -/

section
variable {dialect : Dialect} {segments : List Node} {p : Path}

/-- The path shows the first segments of the chain, or those of a rest of it behind a variable without subscripts,
which holds the value of what was before. -/
inductive Path.ShowsPart (dialect : Dialect) (segments : List Node) : Path → Prop where
  | front {p : Path} : p.Shows dialect segments → ShowsPart dialect segments p
  | behind {before rest : List Node} {x : Segment} {p : Path} : segments = before ++ rest → before ≠ [] →
      x.dims = [] → p.Shows dialect rest → ShowsPart dialect segments (x :: p)

/-- The literals are subscripts of segments of the chain. -/
def Path.LiteralsIn (dialect : Dialect) (segments : List Node) (p : Path) : Prop :=
  ∀ x ∈ p, ∀ l ∈ x.dims, ∃ n ∈ segments.map Node.unwrap, l ∈ Lowering.literalDims dialect n.dims

theorem Node.ShownBy.literal {n : Node} {x : Segment} (h : n.ShownBy dialect x) {l : Segment} (hl : l ∈ x.dims) :
    l ∈ Lowering.literalDims dialect n.dims := by
  unfold Node.ShownBy at h
  split at h
  · obtain ⟨-, -, hnone | hall⟩ := h
    · rw [hnone] at hl
      cases hl
    · rwa [hall] at hl
  · obtain ⟨-, hnone | hall⟩ := h
    · rw [hnone] at hl
      cases hl
    · rwa [hall] at hl
  · cases h

theorem exists_of_mem_forall₂ {α β : Type} {R : α → β → Prop} {l : List α} {m : List β} (h : List.Forall₂ R l m)
    {b : β} (hb : b ∈ m) : ∃ a ∈ l, R a b := by
  induction h with
  | nil => cases hb
  | cons hfirst _ ih =>
    obtain rfl | hb := List.mem_cons.mp hb
    · exact ⟨_, List.mem_cons_self .., hfirst⟩
    · obtain ⟨a, ha, hab⟩ := ih hb
      exact ⟨a, List.mem_cons_of_mem _ ha, hab⟩

theorem Path.Shows.literals (h : p.Shows dialect segments) : p.LiteralsIn dialect segments := by
  obtain ⟨front, hfront, hshown⟩ := h
  intro x hx l hl
  obtain ⟨n, hn, hnx⟩ := exists_of_mem_forall₂ hshown hx
  exact ⟨n, hfront.subset hn, hnx.literal hl⟩

theorem Path.ShowsPart.literals (h : p.ShowsPart dialect segments) : p.LiteralsIn dialect segments := by
  cases h with
  | front hshows => exact hshows.literals
  | behind hsegments _ hx hshows =>
    intro y hy l hl
    obtain rfl | hy := List.mem_cons.mp hy
    · rw [hx] at hl
      cases hl
    · obtain ⟨n, hn, hnl⟩ := hshows.literals y hy l hl
      exact ⟨n, by rw [hsegments, List.map_append]; exact List.mem_append_right _ hn, hnl⟩

/-- What shows a literal in the first segment of a path begins with that segment of the chain. -/
theorem Path.ShowsPart.root {x : Segment} (h : ShowsPart dialect segments (x :: p)) (hx : x.dims ≠ []) :
    ∃ n rest, segments = n :: rest ∧ n.unwrap.ShownBy dialect x := by
  cases h with
  | front hshows =>
    obtain ⟨front, hfront, hshown⟩ := hshows
    cases hshown with
    | cons hfirst _ =>
      cases segments with
      | nil => cases List.prefix_nil.mp hfront
      | cons n rest =>
        rw [List.map_cons] at hfront
        obtain ⟨rfl, -⟩ := List.cons_prefix_cons.mp hfront
        exact ⟨n, rest, rfl, hfirst⟩
  | behind _ _ hnone _ => exact absurd hnone hx

end

/-- The inputs of the node come from chains in the expressions, each with literals of its own chain only, and no two
of them are equal. -/
structure GraphNode.Faithful (dialect : Dialect) (parts : List Node) (n : GraphNode) : Prop where
  nodup : n.dependencies.Nodup
  input : ∀ p ∈ n.dependencies, ∃ m ∈ parts, ∃ segments, m.HasChain segments ∧ p.ShowsPart dialect segments ∧
    p.LiteralsIn dialect segments

/-- The literal is a subscript of a segment of a chain in one of the expressions. -/
def Node.HasLiteral (dialect : Dialect) (parts : List Node) (l : Segment) : Prop :=
  ∃ m ∈ parts, ∃ segments, m.HasChain segments ∧
    ∃ n ∈ segments.map Node.unwrap, l ∈ Lowering.literalDims dialect n.dims

/-- The literal is written behind the first segment of a chain that is split, on one of the segments or inside of
it, or in the target of the chain. -/
def Node.LiteralBehind (dialect : Dialect) (target : Node) (segments : List Node) (l : Segment) : Prop :=
  HasLiteral dialect [target] l ∨ ∃ n ∈ segments.tail,
    l ∈ Lowering.literalDims dialect n.unwrap.dims ∨ HasLiteral dialect n.unwrap.inner l

namespace Lowering

variable {f : Frame} {s t u : State} {target value factor : Node} {span : Span} {anchor : Option Nat}
  {rest segments parts : List Node} {literal : Segment → Prop}

/-- What a node may gather from chains in a statement, with literals of the given kind. -/
def Harvest.ofParts (dialect : Dialect) (parts : List Node) (literal : Segment → Prop) : Harvest where
  path p := ∃ m ∈ parts, ∃ segments, m.HasChain segments ∧ p.ShowsPart dialect segments
  literal := literal
  symbol _ := True

theorem faithful_of_paths (literal : Segment → Prop) {dialect : Dialect} {n : GraphNode} (hnodup : n.dependencies.Nodup)
    (h : ∀ p ∈ n.dependencies, (Harvest.ofParts dialect parts literal).path p) : n.Faithful dialect parts := by
  refine ⟨hnodup, fun p hp => ?_⟩
  obtain ⟨m, hm, segments, hchain, hshows⟩ := h p hp
  exact ⟨m, hm, segments, hchain, hshows, hshows.literals⟩

/-! ## The nodes of a split chain -/

/-- From `s` to `t` a factor of a split chain was lowered, with the segments behind it, and then the target. -/
inductive Factors (f : Frame) (target : Node) (span : Span) :
    Node → Option Nat → List Node → State → State → Prop where
  | last {factor : Node} {anchor : Option Nat} {name : String} {n m : GraphNode} {s s' t u : State} :
      nextTemporary "%ssa_" f s = .ok name s' →
      graphStatement (.identifier (.plain name span)) factor span true true { f with anchor } s' = .ok n t →
      graphStatement target (.identifier (.plain name span)) span false false f { t with held := t.held ++ [n] } =
        .ok m u →
      Factors f target span factor anchor [] s { u with held := u.held ++ [m] }
  | more {factor segment : Node} {anchor : Option Nat} {rest : List Node} {name : String} {n : GraphNode}
      {s s' t u : State} :
      nextTemporary "%ssa_" f s = .ok name s' →
      graphStatement (.identifier (.plain name span)) factor span true false { f with anchor } s' = .ok n t →
      Factors f target span (.member (.identifier (.plain name span)) segment .dot rest.isEmpty span) none rest
        { t with held := t.held ++ [n], pointers := t.pointers ++ [segment] } u →
      Factors f target span factor anchor (segment :: rest) s u

theorem factors_of_run (hrun : lowerFactors target span factor anchor rest f s = .ok () t) :
    Factors f target span factor anchor rest s t := by
  induction rest generalizing factor anchor s with
  | nil =>
    obtain ⟨name, s', hname, hrun⟩ := bind_eq_ok.mp hrun
    obtain ⟨n, u, hfactor, hrun⟩ := bind_eq_ok.mp hrun
    obtain ⟨⟨⟩, u', hheld, hrun⟩ := bind_eq_ok.mp hrun
    cases hheld
    obtain ⟨m, w, htarget, hrun⟩ := bind_eq_ok.mp hrun
    cases hrun
    exact .last hname hfactor htarget
  | cons segment rest ih =>
    obtain ⟨name, s', hname, hrun⟩ := bind_eq_ok.mp hrun
    obtain ⟨n, u, hfactor, hrun⟩ := bind_eq_ok.mp hrun
    obtain ⟨⟨⟩, u', hheld, hrun⟩ := bind_eq_ok.mp hrun
    cases hheld
    obtain ⟨⟨⟩, u', hpushed, hrun⟩ := bind_eq_ok.mp hrun
    cases hpushed
    exact .more hname hfactor (ih hrun)

/-- The nodes were put behind those that are held back, the first of which got literals. -/
def Heaps (literal : Segment → Prop) (ns : List GraphNode) (s t : State) : Prop :=
  ∃ read written, (∀ l ∈ read, literal l) ∧ t.held = onFirst (GraphNode.tacked read written) (s.held ++ ns)

theorem Heaps.trans {ns ms : List GraphNode} (h : Heaps literal ns s t) (h' : Heaps literal ms t u) :
    Heaps literal (ns ++ ms) s u := by
  obtain ⟨read, written, hread, hheld⟩ := h
  obtain ⟨read', written', hread', hheld'⟩ := h'
  unfold Heaps
  rw [hheld', hheld, ← List.append_assoc]
  cases s.held ++ ns with
  | nil => exact ⟨read', written', hread', rfl⟩
  | cons n rest =>
    refine ⟨read ++ read', written ++ written', fun l hl => (List.mem_append.mp hl).elim (hread l) (hread' l), ?_⟩
    change (n.tacked read written).tacked read' written' :: (rest ++ ms) = _
    rw [GraphNode.tacked_tacked]
    rfl

/-- A statement of a split chain puts its node behind the others. Literals that it meets are put behind the first
one of these, if there is one. -/
theorem Stated.heaps {H : Harvest} {isLast : Bool} {n : GraphNode} (h : Stated H f isLast s t n)
    (hliteral : ∀ l, H.literal l → s.held = [] ∨ literal l) :
    Heaps literal [n] s { t with held := t.held ++ [n] } := by
  obtain ⟨read, written, hread, hheld⟩ := h.held
  unfold Heaps
  dsimp only
  rw [hheld]
  cases hs : s.held with
  | nil =>
    refine ⟨[], [], nofun, ?_⟩
    rw [funext GraphNode.tacked_nil]
    rfl
  | cons m rest => exact ⟨read, written, fun l hl => (hliteral l (hread l hl)).resolve_left (by simp [hs]), rfl⟩

/-! ## What the factors gather -/

theorem literalDims_nil (dialect : Dialect) : literalDims dialect [] = [] := by
  cases dialect <;> rfl

/-- The chain of a made-up variable is that variable. -/
theorem hasChain_plain {name : String} (h : (Node.identifier (.plain name span)).HasChain segments) :
    segments = [.identifier (.plain name span)] := by
  cases h with
  | whole _ hsegments => exact (Except.ok.inj hsegments).symm
  | operand hm _ => cases hm

/-- Lowering two segments as a chain lowers that chain, the first of them, and what is inside of them. -/
theorem hasChain_member {a b : Node} {lastFactor : Bool} {inside : List Node} (ha : a.segments = .ok [a])
    (hb : b.segments = .ok [b]) (h : (Node.member a b .dot lastFactor span).HasChain inside) :
    inside = [a, b] ∨ a.HasChain inside ∨ ∃ n ∈ [a, b], ∃ m ∈ n.unwrap.inner, m.HasChain inside := by
  have hsegments := Node.segments_of_sides ha hb lastFactor span
  cases h with
  | whole _ hinside => exact .inl (Except.ok.inj (hinside.symm.trans hsegments))
  | operand hm h =>
    simp only [Node.operands, hsegments] at hm
    rcases List.mem_append.mp hm with hm | hm
    · obtain rfl := List.mem_singleton.mp hm
      exact .inr (.inl h)
    · obtain ⟨n, hn, hm⟩ := List.mem_flatMap.mp hm
      exact .inr (.inr ⟨n, hn, _, hm, h⟩)

section
variable {dialect : Dialect} {before behind front : List Node} {name : String} (hpath : value.isPath = true)
  (hsegments : value.segments = .ok segments) (hvalue : value ∈ parts)

/-- What shows a chain behind a made-up variable shows a rest of the chain that was split. -/
theorem showsPart_behind {p : Path} (hsplit : segments = before ++ behind) (hbefore : before ≠ [])
    (hfront : front <+: behind) (h : p.Shows dialect (.identifier (.plain name span) :: front)) :
    p.ShowsPart dialect segments := by
  obtain ⟨shown, hshown, hp⟩ := h
  cases hp with
  | nil => exact .front ⟨[], List.nil_prefix, .nil⟩
  | @cons n x shown q hx hq =>
    rw [List.map_cons] at hshown
    obtain ⟨rfl, hbehind⟩ := List.cons_prefix_cons.mp hshown
    have hdims : x.dims = [] := by
      obtain ⟨-, -, hnone | hall⟩ := hx
      · exact hnone
      · exact hall.trans (literalDims_nil dialect)
    exact .behind hsplit hbefore hdims ⟨shown, hbehind.trans (hfront.map Node.unwrap), hq⟩

/-- A chain in an expression of the statement may be gathered with its literals. -/
theorem allows_part {node : Node} (hnode : node ∈ parts) {inside : List Node} (h : node.HasChain inside)
    (hliteral : ∀ l, Node.HasLiteral dialect [node] l → literal l) :
    (Harvest.ofParts dialect parts literal).Allows dialect inside :=
  ⟨fun _ hp => ⟨node, hnode, inside, h, .front hp⟩,
    fun n hn l hl => hliteral l ⟨node, List.mem_singleton.mpr rfl, inside, h, n, hn, hl⟩⟩

include hpath hsegments hvalue

theorem allows_temporary (hsplit : segments = before ++ behind) (hbefore : before ≠ []) :
    (Harvest.ofParts dialect parts literal).Allows dialect [.identifier (.plain name span)] := by
  refine ⟨fun p hp => ⟨value, hvalue, segments, .whole hpath hsegments, ?_⟩, fun n hn l hl => ?_⟩
  · exact showsPart_behind hsplit hbefore List.nil_prefix hp
  · obtain rfl := List.mem_singleton.mp hn
    have hnone : l ∈ literalDims dialect [] := hl
    rw [literalDims_nil] at hnone
    cases hnone

/-- A segment behind a made-up variable gathers from the chain that was split. -/
theorem allows_segment {segment : Node} {lastFactor : Bool} {inside : List Node}
    (hsplit : segments = before ++ segment :: behind) (hbefore : before ≠ [])
    (hliteral : ∀ l, Node.LiteralBehind dialect target segments l → literal l)
    (h : (Node.member (.identifier (.plain name span)) segment .dot lastFactor span).HasChain inside) :
    (Harvest.ofParts dialect parts literal).Allows dialect inside := by
  have hmem : segment ∈ segments := by simp [hsplit]
  have htail : segment ∈ segments.tail := by
    cases before with
    | nil => exact absurd rfl hbefore
    | cons n before => simp [hsplit]
  have htemporary : (Harvest.ofParts dialect parts literal).Allows dialect [.identifier (.plain name span)] :=
    allows_temporary hpath hsegments hvalue hsplit hbefore
  obtain rfl | hchain | ⟨n, hn, m, hm, hchain⟩ :=
    hasChain_member rfl (Node.segments_of_mem_segments hsegments hmem) h
  · refine ⟨fun p hp => ⟨value, hvalue, segments, .whole hpath hsegments, ?_⟩, fun n hn l hl => ?_⟩
    · exact showsPart_behind hsplit hbefore ((List.prefix_cons_inj segment).mpr List.nil_prefix) hp
    · rw [List.map_cons] at hn
      obtain rfl | hn := List.mem_cons.mp hn
      · exact htemporary.literal _ (List.mem_singleton.mpr rfl) l hl
      · obtain rfl := List.mem_singleton.mp hn
        exact hliteral l (.inr ⟨segment, htail, .inl hl⟩)
  · obtain rfl := hasChain_plain hchain
    exact htemporary
  · obtain rfl | hn := List.mem_cons.mp hn
    · cases hm
    · obtain rfl := List.mem_singleton.mp hn
      refine ⟨fun p hp => ⟨value, hvalue, inside, Node.hasChain_inside hpath hsegments hmem hm hchain, .front hp⟩, ?_⟩
      exact fun k hk l hl => hliteral l (.inr ⟨n, htail, .inr ⟨m, hm, inside, hchain, k, hk, hl⟩⟩)

/-- The first factor of a split chain gathers from that chain, whatever its literals are. -/
theorem allows_first {inside : List Node} (hfront : front <+: segments)
    (hfactor : front = [factor] ∨ ∃ root second, front = [root, second] ∧ factor = .member root second .dot false span)
    (hliteral : ∀ l, literal l) (h : factor.HasChain inside) :
    (Harvest.ofParts dialect parts literal).Allows dialect inside := by
  have hof (h : value.HasChain inside) : (Harvest.ofParts dialect parts literal).Allows dialect inside :=
    allows_part hvalue h fun l _ => hliteral l
  have hroot {root : Node} {rest : List Node} (hfront : root :: rest <+: segments) (h : root.HasChain inside) :
      value.HasChain inside := by
    obtain ⟨behind, rfl⟩ := hfront
    exact Node.hasChain_root hpath hsegments h
  obtain rfl | ⟨root, second, rfl, rfl⟩ := hfactor
  · exact hof (hroot hfront h)
  · have hsub := hfront.subset
    obtain rfl | hchain | ⟨n, hn, m, hm, hchain⟩ := hasChain_member
      (Node.segments_of_mem_segments hsegments (hsub (List.mem_cons_self ..)))
      (Node.segments_of_mem_segments hsegments (hsub (List.mem_cons_of_mem _ (List.mem_singleton.mpr rfl)))) h
    · refine ⟨fun p hp => ⟨value, hvalue, segments, .whole hpath hsegments, .front ?_⟩, fun _ _ l _ => hliteral l⟩
      obtain ⟨shown, hshown, hp⟩ := hp
      exact ⟨shown, hshown.trans (hfront.map Node.unwrap), hp⟩
    · exact hof (hroot hfront hchain)
    · exact hof (Node.hasChain_inside hpath hsegments (hsub hn) hm hchain)

end

/-! ## The statements of a split chain -/

/-- Splitting a chain lowers its first segment as a factor, together with the next one if it names a class, and the
other segments behind it. -/
theorem factors_of_splitChain (hrun : splitChain target segments span f s = .ok () t) :
    ∃ factor anchor front rest, segments = front ++ rest ∧ anchor = splitAnchor? (sightFrom f s.session) segments ∧
      ((anchor = none ∧ front = [factor]) ∨
        anchor.isSome = true ∧ ∃ root second, front = [root, second] ∧ factor = .member root second .dot false span) ∧
      Factors f target span factor anchor rest { s with pointers := s.pointers ++ front } t := by
  replace hrun := sight_bind_ok hrun
  have hrooted {root : Node} {rest : List Node} (hrun : (do
      pushPointers [root]
      lowerFactors target span root none rest : Lower Unit) f s = .ok () t) :
      Factors f target span root none rest { s with pointers := s.pointers ++ [root] } t := by
    obtain ⟨⟨⟩, w, hpushed, hrun⟩ := bind_eq_ok.mp hrun
    cases hpushed
    exact factors_of_run hrun
  cases segments with
  | nil => cases hrun
  | cons root rest =>
    cases hanchor : splitAnchor? (sightFrom f s.session) (root :: rest) with
    | none =>
      rw [hanchor] at hrun
      exact ⟨root, none, [root], rest, rfl, rfl, .inl ⟨rfl, rfl⟩, hrooted hrun⟩
    | some cls =>
      rw [hanchor] at hrun
      cases rest with
      | nil =>
        unfold splitAnchor? at hanchor
        split at hanchor
        · next h => cases h
        · cases hanchor
      | cons second rest =>
        obtain ⟨⟨⟩, w, hpushed, hrun⟩ := bind_eq_ok.mp hrun
        cases hpushed
        exact ⟨_, _, [root, second], rest, rfl, rfl, .inr ⟨rfl, root, second, rfl, rfl⟩, factors_of_run hrun⟩

section
variable (hpath : value.isPath = true) (hsegments : value.segments = .ok segments) (hvalue : value ∈ parts)
include hpath hsegments hvalue

/-- A statement of a split chain gathers from the chains of the whole statement. -/
theorem stated_of_split {left right : Node} {isTemporary isLast : Bool} {n : GraphNode}
    (hleft : ∀ inside, left.HasChain inside → (Harvest.ofParts f.dialect parts literal).Allows f.dialect inside)
    (hright : ∀ inside, right.HasChain inside → (Harvest.ofParts f.dialect parts literal).Allows f.dialect inside)
    (hlast : isLast = true → s.pointers = segments)
    (hrun : graphStatement left right span isTemporary isLast f s = .ok n t) :
    Stated (Harvest.ofParts f.dialect parts literal) f isLast s t n := by
  refine graphStatement_gathers (fun _ => trivial) hright hleft
    (fun hend m hm => Node.segments_of_mem_segments hsegments (hlast hend ▸ hm)) (fun hend p hp => ?_) hrun
  exact ⟨value, hvalue, segments, .whole hpath hsegments, .front (hlast hend ▸ hp)⟩

/-- The nodes of a split chain gather from the chains of the statement. -/
theorem Factors.gather (htarget : target ∈ parts) (h : Factors f target span factor anchor rest s t)
    (hrest : segments = s.pointers ++ rest) (hbegun : s.pointers ≠ [])
    (hfactor : ∀ inside, factor.HasChain inside →
      (Harvest.ofParts f.dialect parts fun l => s.held = [] ∨
        Node.LiteralBehind f.dialect target segments l).Allows f.dialect inside) :
    ∃ ns, (∀ n ∈ ns, n.block = f.block ∧ n.Faithful f.dialect parts) ∧
      Heaps (Node.LiteralBehind f.dialect target segments) ns s t ∧ t.session.nodes = s.session.nodes := by
  have hname {s s' : State} {name : String} (hname : nextTemporary "%ssa_" f s = .ok name s') :
      Aside s s' ∧ s'.session.nodes = s.session.nodes := by
    have htame : Tame true false (nextTemporary "%ssa_") := .nextTemporary _
    exact ⟨Aloof.ofInert htame f s name s' hname, still_nodes (htame.keeps_ok hname).session⟩
  have hplain {name : String} {before behind inside : List Node} {literal : Segment → Prop}
      (hsplit : segments = before ++ behind) (hbefore : before ≠ [])
      (h : (Node.identifier (.plain name span)).HasChain inside) :
      (Harvest.ofParts f.dialect parts literal).Allows f.dialect inside := by
    obtain rfl := hasChain_plain h
    exact allows_temporary hpath hsegments hvalue hsplit hbefore
  have haway {s s' u : State} {ns : List GraphNode} {literal : Segment → Prop} (haside : Aside s s')
      (h : Heaps literal ns s' u) : Heaps literal ns s u := by
    unfold Heaps at h
    rwa [haside.held] at h
  have hown {g : Frame} {isLast : Bool} {n : GraphNode} {literal : Segment → Prop} {s t : State}
      (h : Stated (Harvest.ofParts f.dialect parts literal) g isLast s t n) (hg : g.block = f.block) :
      n.block = f.block ∧ n.Faithful f.dialect parts := ⟨h.block.trans hg, faithful_of_paths literal h.nodup h.inputs⟩
  induction h with
  | @last factor anchor name n m s s' t u hnamed hfirst hlast =>
    obtain ⟨haside, hsession⟩ := hname hnamed
    have hwhole : s'.pointers = segments := by rw [haside.pointers, hrest, List.append_nil]
    have hstated := stated_of_split (f := { f with anchor }) hpath hsegments hvalue (fun inside => hplain hrest hbegun)
      hfactor (fun _ => hwhole) hfirst
    have hstated' : Stated (Harvest.ofParts f.dialect parts (Node.LiteralBehind f.dialect target segments)) f false
        { t with held := t.held ++ [n] } u m :=
      stated_of_split hpath hsegments hvalue (fun inside h => allows_part htarget h fun l => .inl)
        (fun inside => hplain hrest hbegun) (fun h => absurd h Bool.false_ne_true) hlast
    refine ⟨[n] ++ [m], fun k hk => ?_, haway haside (.trans (hstated.heaps fun l => ?_) (hstated'.heaps fun l => .inr)),
      ?_⟩
    · obtain rfl | hk := List.mem_cons.mp hk
      · exact hown hstated rfl
      · exact List.mem_singleton.mp hk ▸ hown hstated' rfl
    · rw [haside.held]
      exact id
    · exact hstated'.nodes.trans (hstated.nodes.trans hsession)
  | @more factor segment anchor rest name n s s' t u hnamed hfirst _ ih =>
    obtain ⟨haside, hsession⟩ := hname hnamed
    have hstated := stated_of_split (f := { f with anchor }) hpath hsegments hvalue (fun inside => hplain hrest hbegun)
      hfactor (fun h => absurd h Bool.false_ne_true) hfirst
    have hended : t.pointers = s.pointers := hstated.pointers.trans haside.pointers
    obtain ⟨ms, hms, hheaps, hnodes⟩ := ih (by rw [hended, hrest, List.append_assoc]; rfl) (by simp)
      fun inside => allows_segment hpath hsegments hvalue hrest hbegun fun l => .inr
    refine ⟨[n] ++ ms, fun k hk => ?_, haway haside (.trans (hstated.heaps fun l => ?_) hheaps), ?_⟩
    · obtain rfl | hk := List.mem_cons.mp hk
      · exact hown hstated rfl
      · exact hms k hk
    · rw [haside.held]
      exact id
    · exact hnodes.trans (hstated.nodes.trans hsession)

end

/-! ## What a statement adds -/

theorem nodes_of_commit {n : GraphNode} (hrun : commit n f s = .ok () t) :
    t.session.nodes n.block = s.session.nodes n.block ++ #[{ n with isSealed := true }] := by
  rw [run_commit] at hrun
  split at hrun
  · cases hrun
  rw [modifyBlock_run] at hrun
  split at hrun
  · next b hb =>
    cases hrun
    have hb' : s.session.block? n.block = some b := hb
    unfold Session.nodes
    rw [Session.block?_modifyBlock, if_pos rfl, hb, hb']
    simp
  · cases hrun

/-- Committing nodes one after the other puts them behind those of their block. -/
theorem nodes_of_commits (block : Nat) {ns : List GraphNode} (hblock : ∀ n ∈ ns, n.block = block)
    (hrun : ns.forM commit f s = .ok () t) :
    t.session.nodes block = s.session.nodes block ++ (ns.map fun n => { n with isSealed := true }).toArray := by
  induction ns generalizing s with
  | nil =>
    cases hrun
    simp
  | cons n rest ih =>
    obtain ⟨⟨⟩, u, hfirst, hrest⟩ := bind_eq_ok.mp hrun
    obtain rfl := hblock n (List.mem_cons_self ..)
    rw [ih (fun m hm => hblock m (List.mem_cons_of_mem n hm)) hrest, nodes_of_commit hfirst, Array.append_assoc]
    simp

/-- From `s` to `t` a statement with nodes was lowered. Its expressions are `parts`; where it splits a chain, the
literals behind the first segment of the chain are those of the given kind. -/
inductive Lowers (f : Frame) : List Node → (Segment → Prop) → State → State → Prop where
  | assign {target value : Node} {span : Span} {s t : State} : lowerUpdate target value span f s = .ok () t →
      Lowers f [target, value] (fun l => isSplit s.session.options value = true ∧
        ∃ segments, value.segments = .ok segments ∧ Node.LiteralBehind f.dialect target segments l) s t
  | result {value : Option Node} {span : Span} {s t : State} : lowerReturn value span f s = .ok () t →
      Lowers f value.toList (fun _ => False) s t

/-- A statement added the nodes to its block. All but the first are faithful, and the first is a faithful node with
literals of the given kind behind its last input. -/
structure Adds (f : Frame) (parts : List Node) (literal : Segment → Prop) (s t : State) (added : List GraphNode) :
    Prop where
  nodes : t.session.nodes f.block = s.session.nodes f.block ++ added.toArray
  behind : ∀ n ∈ added.tail, n.Faithful f.dialect parts
  first : ∀ n ∈ added.head?, ∃ (m : GraphNode) (read written : List Segment), m.Faithful f.dialect parts ∧
    n = m.tacked read written ∧ ∀ l ∈ read, literal l

/-- Where no such literals are, the first node is faithful, too. -/
theorem Adds.faithful {added : List GraphNode} (h : Adds f parts literal s t added) (hnone : ∀ l, ¬ literal l) :
    ∀ n ∈ added, n.Faithful f.dialect parts := by
  cases added with
  | nil => exact nofun
  | cons n rest =>
    intro k hk
    obtain rfl | hk := List.mem_cons.mp hk
    · obtain ⟨m, read, written, hm, rfl, hread⟩ := h.first _ rfl
      cases read with
      | nil =>
        have hsame : (m.tacked [] written).dependencies = m.dependencies := by
          simp [GraphNode.tacked, GraphNode.tackedPath_nil, GraphNode.onLast_id]
        exact ⟨hsame ▸ hm.nodup, hsame ▸ hm.input⟩
      | cons l read => exact absurd (hread l (List.mem_cons_self ..)) (hnone l)
    · exact h.behind k hk

theorem Adds.mono {literal' : Segment → Prop} {added : List GraphNode} (h : Adds f parts literal s t added)
    (hliteral : ∀ l, literal l → literal' l) : Adds f parts literal' s t added := by
  refine ⟨h.nodes, h.behind, fun n hn => ?_⟩
  obtain ⟨m, read, written, hm, hsame, hread⟩ := h.first n hn
  exact ⟨m, read, written, hm, hsame, fun l hl => hliteral l (hread l hl)⟩

theorem adds_of_commits (ns : List GraphNode) (read written : List Segment)
    (hns : ∀ n ∈ ns, n.block = f.block ∧ n.Faithful f.dialect parts) (hread : ∀ l ∈ read, literal l)
    (hnodes : u.session.nodes = s.session.nodes)
    (hrun : (onFirst (GraphNode.tacked read written) ns).forM commit f u = .ok () t) :
    ∃ added, Adds f parts literal s t added := by
  have hcommitted := nodes_of_commits f.block (fun n hn => ?_) hrun
  · rw [hnodes] at hcommitted
    refine ⟨_, hcommitted, fun n hn => ?_, fun n hn => ?_⟩
    · cases ns with
      | nil => cases hn
      | cons m rest =>
        obtain ⟨k, hk, rfl⟩ := List.mem_map.mp hn
        have hfaithful := (hns k (List.mem_cons_of_mem m hk)).2
        exact ⟨hfaithful.nodup, hfaithful.input⟩
    · cases ns with
      | nil => cases hn
      | cons m rest =>
        obtain rfl := Option.mem_some_iff.mp hn
        have hfaithful := (hns m (List.mem_cons_self ..)).2
        exact ⟨{ m with isSealed := true }, read, written, ⟨hfaithful.nodup, hfaithful.input⟩, rfl, hread⟩
  · obtain hn | ⟨m, hm, rfl⟩ := mem_onFirst hn
    · exact (hns n hn).1
    · exact (hns m hm).1

/-- A node that is committed at once gets no literals. -/
theorem adds_of_commit {n : GraphNode} (hblock : n.block = f.block) (hn : n.Faithful f.dialect parts)
    (hnodes : u.session.nodes = s.session.nodes) (hrun : commit n f u = .ok () t) :
    ∃ added, Adds f parts literal s t added := by
  refine adds_of_commits [n] [] [] ?_ nofun hnodes ?_
  · exact fun m hm => List.mem_singleton.mp hm ▸ ⟨hblock, hn⟩
  · rw [funext GraphNode.tacked_nil]
    exact bind_eq_ok.mpr ⟨(), t, hrun, rfl⟩

theorem lowerReturn_adds {value : Option Node} (hrun : lowerReturn value span f s = .ok () t) :
    ∃ added, Adds f value.toList (fun _ => False) s t added := by
  obtain ⟨fresh, s₁, hopened, hrun⟩ := bind_eq_ok.mp hrun
  obtain ⟨⟨⟨⟩, node⟩, u, htracked, hrun⟩ := bind_eq_ok.mp hrun
  obtain ⟨cls, u', hscope, hcommit⟩ := bind_eq_ok.mp hrun
  cases hscope
  rw [run_freshNode] at hopened
  cases hopened
  rw [run_tracking] at htracked
  split at htracked
  case h_2 => cases htracked
  next result u hreturn =>
  cases htracked
  obtain ⟨type, w, hvalued, hkept⟩ := returnStatement_ok hreturn
  have henriched : Enriched (Harvest.ofParts f.dialect value.toList fun _ => True)
      { s with session := { s.session with nextUid := s.session.nextUid + 1 }, node := openNode f s false } w := by
    cases value with
    | none => exact (Aloof.bind (.ofInert (.emitPush _ _ _)) (fun _ => .pure _) _ _ _ w hvalued).enriched
    | some v =>
      refine (Gathers.ok (f := { f with isTracked := true }) (Gathers.expression ⟨rfl⟩ v fun segments hchain =>
        ⟨?_, fun _ _ r _ => trivial⟩) hvalued).toEnriched
      exact allows_part (List.mem_singleton.mpr rfl) hchain fun _ _ => trivial
  have hnode := (hkept.inert rfl).2
  have hdependencies := congrArg GraphNode.dependencies hnode
  obtain ⟨new, hnew, hinputs⟩ := henriched.inputs
  have hblock : u.node.block = f.block :=
    (congrArg GraphNode.block hnode).trans (congrArg GraphNode.block henriched.outline)
  refine adds_of_commit (n := { u.node with updated := some (returnPath f.scope.classScope) }) hblock
    (faithful_of_paths (fun _ => True) ?_ fun p hp => ?_) ?_ hcommit
  · have hnodup := henriched.nodup List.nodup_nil
    rwa [← hdependencies] at hnodup
  · refine hnew p ?_
    have hsame : u.node.dependencies = new := hdependencies.trans hinputs
    exact hsame ▸ hp
  · have hlowered := (Gentle.ofMild (.lowerReturned value span)).ok hvalued
    have hnodes := still_nodes (hlowered.session.trans hkept.session)
    exact hnodes

theorem isPath_of_isSplit {o : Options} (h : isSplit o value = true) : value.isPath = true := by
  cases value with
  | member => rfl
  | _ => cases h

theorem lowerUpdate_adds (hrun : lowerUpdate target value span f s = .ok () t) :
    ∃ added, Adds f [target, value] (fun l => isSplit s.session.options value = true ∧
      ∃ segments, value.segments = .ok segments ∧ Node.LiteralBehind f.dialect target segments l) s t added := by
  obtain ⟨⟨⟩, s₁, hforget, hrun⟩ := bind_eq_ok.mp hrun
  cases hforget
  obtain ⟨session, s₂, hsession, hrun⟩ := bind_eq_ok.mp hrun
  cases hsession
  rw [run_ite] at hrun
  split at hrun
  · next hsplit =>
    obtain ⟨segments, s₂, hflat, hrun⟩ := bind_eq_ok.mp hrun
    obtain ⟨hsegments, rfl⟩ := chainSegments_run hflat
    obtain ⟨⟨⟩, s₃, hcleared, hrun⟩ := bind_eq_ok.mp hrun
    cases hcleared
    obtain ⟨⟨⟩, s₄, hchain, hrun⟩ := bind_eq_ok.mp hrun
    obtain ⟨state, s₅, hstate, hrun⟩ := bind_eq_ok.mp hrun
    cases hstate
    obtain ⟨⟨⟩, s₆, hclear, hcommit⟩ := bind_eq_ok.mp hrun
    cases hclear
    obtain ⟨factor, anchor, front, rest, hparts, -, hfactor, hfactors⟩ := factors_of_splitChain hchain
    have hpath := isPath_of_isSplit hsplit
    have hfirst : front = [factor] ∨
        ∃ root second, front = [root, second] ∧ factor = .member root second .dot false span :=
      hfactor.imp And.right And.right
    have hbegun : front ≠ [] := by
      obtain rfl | ⟨root, second, rfl, -⟩ := hfirst <;> simp
    have hvalue : value ∈ [target, value] := by simp
    obtain ⟨ns, hns, ⟨read, written, hread, hheld⟩, hnodes⟩ := hfactors.gather hpath hsegments hvalue
      (List.mem_cons_self ..) hparts hbegun fun inside h =>
        allows_first hpath hsegments hvalue (hparts ▸ List.prefix_append ..) hfirst (fun _ => .inl rfl) h
    rw [hheld] at hcommit
    obtain ⟨added, hadded⟩ := adds_of_commits (s := s) (u := { s₄ with pointers := [], held := [] }) ns read written hns hread hnodes hcommit
    exact ⟨added, hadded.mono fun l hl => ⟨hsplit, segments, hsegments, hl⟩⟩
  · obtain ⟨n, u, hnode, hcommit⟩ := bind_eq_ok.mp hrun
    have hpart {m : Node} (hm : m ∈ [target, value]) (inside : List Node) (h : m.HasChain inside) :
        (Harvest.ofParts f.dialect [target, value] fun _ => True).Allows f.dialect inside :=
      allows_part hm h fun _ _ => trivial
    have hstated := graphStatement_gathers (fun _ => trivial) (hpart (by simp)) (hpart (by simp))
      (fun h => absurd h Bool.false_ne_true) (fun h => absurd h Bool.false_ne_true) hnode
    exact adds_of_commit hstated.block (faithful_of_paths (fun _ => True) hstated.nodup hstated.inputs) hstated.nodes hcommit

/-- The nodes that a statement adds to its block are faithful, except that the first node of a chain that is split
is a faithful one with literals behind its last input, which were met behind the first segment of the chain. If there
are none of these, all nodes are faithful. -/
theorem nodes_of_statement (h : Lowers f parts literal s t) :
    ∃ added, Adds f parts literal s t added ∧ ((∀ l, ¬ literal l) → ∀ n ∈ added, n.Faithful f.dialect parts) := by
  suffices hadds : ∃ added, Adds f parts literal s t added by
    obtain ⟨added, hadded⟩ := hadds
    exact ⟨added, hadded, hadded.faithful⟩
  cases h with
  | assign hrun => exact lowerUpdate_adds hrun
  | result hrun => exact lowerReturn_adds hrun

/-- A class `P` with a method `f` of one argument, an object `p` of it, and an array `b`. -/
def methodUnit : List Node :=
  let f : Function :=
    { name := "f", params := [⟨"a", .var, none, .nil⟩], returns := ⟨"int", 0⟩, body := [], attributes := []
      isStatic := false, isConstructor := false, access := .isPublic, span := .nil }
  let name (n : String) : Node := .identifier (.plain n .nil)
  [.classDecl { name := "P", base := none, members := [], methods := [f], attributes := [], span := .nil },
    .assign (name "p") (.call { name := "P", args := [], dims := [], guides := [], span := .nil }) .nil,
    .assign (name "b") (.list [.literal .int "7" .nil] [] [] .nil) .nil]

/-- The chain `p.f(a)`. -/
def methodChain (a : Node) : Node :=
  .member (.identifier (.plain "p" .nil)) (.call { name := "f", args := [a], dims := [], guides := [], span := .nil })
    .dot false .nil

/-- The session in which they are declared, and chains are split. -/
@[irreducible] def methodSession : Session := (Session.compile (.new { fullSsa := true }) methodUnit .associative).2

/-- The run of `x = p.f(a)`. -/
def methodStatement (a : Node) : EStateM.Result Stop State Unit :=
  lowerUpdate (.identifier (.plain "x" .nil)) (methodChain a) .nil assignmentFrame { session := methodSession }

/-- All three nodes of `x = p.f(b)` are faithful. -/
theorem argument_faithful :
    let a : Node := .identifier (.plain "b" .nil)
    let t := ending (methodStatement a)
    ∃ added : List GraphNode, added.length = 3 ∧ t.session.nodes 0 = methodSession.nodes 0 ++ added.toArray ∧
      ∀ n ∈ added, n.Faithful .associative [.identifier (.plain "x" .nil), methodChain a] := by
  intro a t
  have hrun := eq_ok_ending (m := lowerUpdate (.identifier (.plain "x" .nil)) (methodChain a) .nil)
    (f := assignmentFrame) (s := { session := methodSession }) (by decide +kernel)
  have hsize : (t.session.nodes 0).size = (methodSession.nodes 0).size + 3 := by decide +kernel
  change lowerUpdate _ _ _ _ _ = .ok () t at hrun
  clear_value t
  have hplain {name : String} {l : Segment} :
      ¬ Node.HasLiteral .associative [.identifier (.plain name .nil)] l := by
    rintro ⟨m, hm, segments, hchain, n, hn, hl⟩
    obtain rfl := List.mem_singleton.mp hm
    obtain rfl := hasChain_plain hchain
    obtain rfl := List.mem_singleton.mp hn
    cases hl
  obtain ⟨added, hadded, hfaithful⟩ := nodes_of_statement (.assign hrun)
  refine ⟨added, ?_, hadded.nodes, hfaithful fun l ⟨_, segments, hsegments, hl⟩ => ?_⟩
  · have hnodes := congrArg Array.size hadded.nodes
    rw [Array.size_append, List.size_toArray] at hnodes
    exact Nat.add_left_cancel (hnodes.symm.trans hsize)
  · cases hsegments
    obtain hl | ⟨n, hn, hl | hl⟩ := hl
    · exact hplain hl
    · obtain rfl := List.mem_singleton.mp hn
      cases hl
    · obtain rfl := List.mem_singleton.mp hn
      exact hplain hl

/-- In `x = p.f(b[0])` the subscript of `b` ends up behind `p`, which is the input of the first node. -/
theorem literal_of_argument_strays :
    let a : Node := .identifier ⟨"b", [.literal .int "0" .nil], [], .nil⟩
    (methodStatement a matches .ok _ _) = true ∧
      ∃ n, ((ending (methodStatement a)).session.nodes 0)[2]? = some n ∧
        n.dependencies = [[{ Segment.ofName "p" (some ⟨.block 0, 0⟩) none with dims := [.ofLiteral "0"] }]] ∧
        ¬ n.Faithful .associative [.identifier (.plain "x" .nil), methodChain a] := by
  intro a
  obtain ⟨hok, hinput⟩ : (methodStatement a matches .ok _ _) = true ∧
      (((ending (methodStatement a)).session.nodes 0)[2]?).map GraphNode.dependencies =
        some [[{ Segment.ofName "p" (some ⟨.block 0, 0⟩) none with dims := [.ofLiteral "0"] }]] := by
    decide +kernel
  obtain ⟨n, hn, hdependencies⟩ := Option.map_eq_some_iff.mp hinput
  refine ⟨hok, n, hn, hdependencies, fun hfaithful => ?_⟩
  obtain ⟨m, hm, segments, hchain, hshows, -⟩ := hfaithful.input _ (hdependencies ▸ List.mem_singleton.mpr rfl)
  obtain ⟨root, rest, rfl, hroot⟩ := hshows.root (List.cons_ne_nil _ _)
  -- The chains of the statement begin with `x`, with `p`, which has no subscript, or with `b`.
  have hnot {name : String} : ¬ (Node.identifier (.plain name .nil)).ShownBy .associative
      { Segment.ofName "p" (some ⟨.block 0, 0⟩) none with dims := [.ofLiteral "0"] } := by
    rintro ⟨-, -, hnone | hnone⟩ <;> cases hnone
  have hplain {name : String} {rest : List Node}
      (h : (Node.identifier (.plain name .nil)).HasChain (root :: rest)) : False := by
    obtain ⟨rfl, -⟩ := List.cons.inj (hasChain_plain h)
    exact hnot hroot
  obtain rfl | hm := List.mem_cons.mp hm
  · exact hplain hchain
  obtain rfl := List.mem_singleton.mp hm
  obtain hsame | hchain | ⟨k, hk, m, hm, hchain⟩ := hasChain_member rfl rfl hchain
  · obtain ⟨rfl, -⟩ := List.cons.inj hsame
    exact hnot hroot
  · exact hplain hchain
  · obtain rfl | hk := List.mem_cons.mp hk
    · cases hm
    obtain rfl := List.mem_singleton.mp hk
    obtain rfl := List.mem_singleton.mp hm
    cases hchain with
    | whole _ hsegments =>
      obtain ⟨rfl, -⟩ := List.cons.inj (Except.ok.inj hsegments)
      obtain ⟨-, hname, -⟩ := hroot
      revert hname
      decide
    | operand hd hchain =>
      obtain rfl := List.mem_singleton.mp hd
      cases hchain with
      | whole hpath => cases hpath
      | operand hd => cases hd

end Lowering

end Diglot
