import Diglot.Proofs.Chains.Walk
import Diglot.Proofs.Paths.Target

/-! # A chain that is recorded without code

A chain that was split is recorded as a whole once more, as far as `Sight.walk` resolves it. What is recorded so
is a front part of what lowering the chain records, subscripts apart, unless the walk strays from it
(`dependency?_prefix_iff`).
-/

set_option autoImplicit false

namespace Diglot

namespace Lowering

variable {f : Frame} {s t : State} {c d e : Cursor}

/-- A member that is not static ends a chain behind the name of a class. -/
theorem lowerIdentifier_instance {ident : Identifier} {r : SymbolRef} {x : Symbol} (hdepth : c.depth ≠ 0)
    (hlate : c.isLate = false) (hanchor : c.anchor.isSome)
    (hr : (sightFrom f s.session).segmentTarget ident.name c = .symbol r) (hx : s.session.symbol? r = some x)
    (hstatic : x.isStatic = false) (hrun : lowerIdentifier expression ident c f s = .ok d t) :
    d.path = c.path ∧ (d.isStopped = true ∨ d.isLate = true) := by
  have hnone : (sightFrom f s.session).stepName? c ident = none := by
    have hx' : (sightFrom f s.session).session.symbol? r = some x := hx
    obtain ⟨cls, hcls⟩ := Option.isSome_iff_exists.mp hanchor
    unfold Sight.stepName?
    rw [if_neg (by simp [hdepth]), hr]
    dsimp only
    rw [hx', hcls]
    simp [hstatic]
  have hends := lowerIdentifier_ends hlate hnone hrun
  unfold Sight.hiddenName at hends
  rw [hr] at hends
  exact hends.imp_left fun hpath => hpath.trans (List.append_nil _)

/-- A member that may not be used ends a chain, and is shown. -/
theorem lowerIdentifier_inaccessible {ident : Identifier} {x : Segment}
    (hthis : (ident.isThis && c.depth == 0) = false) (hlate : c.isLate = false)
    (hr : (sightFrom f s.session).segmentTarget ident.name c = .inaccessible)
    (hx : (sightFrom f s.session).hiddenMember? ident.name c = some x)
    (hrun : lowerIdentifier expression ident c f s = .ok d t) : d.path = c.path ++ [x] := by
  have hnone : (sightFrom f s.session).stepName? c ident = none := by
    unfold Sight.stepName?
    rw [if_neg (Bool.eq_false_iff.mp hthis), hr]
  have hpath := (lowerIdentifier_ends hlate hnone hrun).1
  unfold Sight.hiddenName at hpath
  rw [hr, hx] at hpath
  exact hpath

section
variable {a : Session} (hnames : a.SameNames s.session) {n : Node} {isRoot : Bool} (h : c.Mirrors e)
  (hrun : lowerSegment expression isRoot n e f s = .ok d t)
include hnames h hrun

/-- Where the walk strays, what is lowered shows no member, and may stop. -/
theorem lowerSegment_strays (hstrays : (sightFrom f a).Strays c n) :
    d.path = e.path ∧ (d.isStopped = true ∨ d.isLate = true) ∨ ∃ y, y.symbol = none ∧ d.path = e.path ++ [y] := by
  have hcalled {call : Call} (hargs : call.args ≠ []) (hrun : lowerCall expression call e f s = .ok d t) :
      d.path = e.path ∧ (d.isStopped = true ∨ d.isLate = true) ∨ ∃ y, y.symbol = none ∧ d.path = e.path ++ [y] := by
    obtain ⟨on, hrun⟩ := lowerCall_ok hrun
    rw [Sight.accessedProperty?_of_args hargs] at hrun
    cases (Returns.lowerResolvedCall call).ok hrun with
    | shown hsymbol _ hpath _ => exact .inr ⟨_, hsymbol, hpath.trans (by simp [h.isStatic.isLate])⟩
    | stopped hpath _ hstopped => exact .inl ⟨hpath, .inl hstopped⟩
  cases hstrays with
  | withArguments hargs _ => exact hcalled hargs hrun
  | @throughClass n name r x hname hanchor hr hx hstatic =>
    have hdepth : e.depth ≠ 0 := fun hzero => h.behind hanchor (h.depth.mp hzero)
    have hanchor' : e.anchor.isSome := h.anchor ▸ hanchor
    have hr' : (sightFrom f s.session).segmentTarget name e = .symbol r := by
      rw [Sight.segmentTarget_sightFrom hnames]
      exact ((h.segmentTarget name).resolve_right (by simp [hr])).trans hr
    have hx' : s.session.symbol? r = some x := (hnames.symbol?_eq r).trans hx
    cases n with
    | identifier ident =>
      cases hname
      exact .inl (lowerIdentifier_instance hdepth h.isStatic.isLate hanchor' hr' hx' hstatic hrun)
    | call call =>
      by_cases hargs : call.args = []
      · have hproperty : propertyName? call.name = some name := by
          have hpos : 0 < c.depth := Nat.pos_of_ne_zero (h.behind hanchor)
          simpa [Sight.readName?, hpos] using hname
        obtain ⟨on, hrun⟩ := lowerCall_ok hrun
        rw [Sight.accessedProperty?_eq hdepth hproperty hargs (.inl ⟨r, hr'⟩)] at hrun
        have hr'' : (sightFrom { f with isGuided := on } s.session).segmentTarget
            (Identifier.mk name call.dims [] call.span).name e = .symbol r := hr'
        exact .inl (lowerIdentifier_instance hdepth h.isStatic.isLate hanchor' hr'' hx' hstatic hrun)
      · exact hcalled hargs hrun
    | _ => cases hname

/-- Where the walk stops and does not stray, it has shown nothing that lowering does not. -/
theorem lowerSegment_stop (hstrays : ¬ (sightFrom f a).Strays c n) {w : Cursor}
    (hstop : (sightFrom f a).walkSegment c n = .stop w) : w.path.bare <+: d.path.bare := by
  have hgrows : c.path.bare <+: d.path.bare := by
    rw [← h.path]
    cases (Returns.lowerSegment isRoot n).ok hrun with
    | @shown x _ hpath _ =>
      rw [hpath, Cursor.path_track, if_neg (by simp [h.isStatic.isLate]), Sight.bare_append]
      exact List.prefix_append _ _
    | ended hpath _ _ => exact hpath ▸ List.prefix_refl _
  have hshows {ident : Identifier} {b : Bool} {x : Segment} (hthis : (ident.isThis && e.depth == 0) = false)
      (hr : (sightFrom f a).segmentTarget ident.name c = .inaccessible)
      (hx : (sightFrom f a).hiddenMember? ident.name c = some x)
      (hrun : lowerIdentifier expression ident e { f with isGuided := b } s = .ok d t) :
      (c.path ++ [x]).bare <+: d.path.bare := by
    have hr' : (sightFrom f s.session).segmentTarget ident.name e = .inaccessible := by
      rw [Sight.segmentTarget_sightFrom hnames]
      exact ((h.segmentTarget ident.name).resolve_right (by simp [hr])).trans hr
    have hx' : (sightFrom f s.session).hiddenMember? ident.name e = some x := by
      rw [Sight.hiddenMember?_sightFrom hnames, h.hiddenMember? (by simp [hr]), hx]
    have hpath := lowerIdentifier_inaccessible (f := { f with isGuided := b }) hthis h.isStatic.isLate hr' hx' hrun
    have hsame : d.path.bare = (c.path ++ [x]).bare := by
      rw [hpath, Sight.bare_append, Sight.bare_append, h.path]
    exact hsame ▸ List.prefix_refl _
  cases n with
  | identifier ident =>
    change (if ident.isThis && c.depth == 0 then _ else _) = Walk.stop w at hstop
    split at hstop
    · cases hstop
    · next hthis =>
      obtain hsame | ⟨x, hr, hx, hpath⟩ := Sight.walkTarget_stop hstop
      · exact hsame ▸ hgrows
      · have hthis' : (ident.isThis && e.depth == 0) = false := by
          rw [← Bool.eq_false_iff.mpr hthis]
          congr 1
          simp [h.depth]
        exact hpath ▸ hshows (b := f.isGuided) hthis' hr hx hrun
  | call call =>
    dsimp only [Sight.walkSegment] at hstop
    split at hstop
    · next property hproperty =>
      obtain ⟨hdepth, hname⟩ : 0 < c.depth ∧ propertyName? call.name = some property := by
        split at hproperty
        · next hdepth => exact ⟨hdepth, hproperty⟩
        · cases hproperty
      obtain hsame | ⟨x, hr, hx, hpath⟩ := Sight.walkTarget_stop hstop
      · exact hsame ▸ hgrows
      · have hargs : call.args = [] := by
          by_contra hargs
          have hname' : propertyName? ({ call with args := [] } : Call).name = some property := hname
          refine hstrays (.withArguments hargs ?_)
          rw [Sight.accessedProperty?_eq (by omega) hname' rfl (.inr hr)]
          rfl
        have hdepth' : e.depth ≠ 0 := fun hzero => by
          have := h.depth.mp hzero
          omega
        have hr' : (sightFrom f s.session).segmentTarget property e = .inaccessible := by
          rw [Sight.segmentTarget_sightFrom hnames]
          exact ((h.segmentTarget property).resolve_right (by simp [hr])).trans hr
        obtain ⟨on, hrun⟩ := lowerCall_ok hrun
        rw [Sight.accessedProperty?_eq hdepth' hname hargs (.inr hr')] at hrun
        have hthis : ((Identifier.mk property call.dims [] call.span).isThis && e.depth == 0) = false := by
          simp [hdepth']
        exact hpath ▸ hshows hthis hr hx hrun
    · obtain rfl := Sight.walkCall_stop hstop
      exact hgrows
  | _ =>
    cases hstop
    exact hgrows

end

/-! ## The whole chain -/

theorem prefix_bare {p q : Path} (h : p <+: q) : p.bare <+: q.bare := List.IsPrefix.map _ h

/-- A path that goes on with a member is no front part of one that ends there, or goes on without a symbol. -/
theorem not_prefix_bare {p q r : Path} {x : Segment} (hp : p.bare = q.bare) (hx : x.symbol.isSome)
    (hwalked : p ++ [x] <+: r) {l : Path} (hlowered : l = q ∨ ∃ y rest, y.symbol = none ∧ l = q ++ y :: rest) :
    ¬ r.bare <+: l.bare := by
  intro hfront
  have hshown : (p ++ [x]).bare <+: l.bare := (prefix_bare hwalked).trans hfront
  rw [Sight.bare_append, hp] at hshown
  obtain rfl | ⟨y, rest, hy, rfl⟩ := hlowered
  · have hlength := hshown.length_le
    rw [List.length_append] at hlength
    simp only [Path.bare, List.length_map, List.length_cons, List.length_nil] at hlength
    omega
  · rw [Sight.bare_append, List.prefix_append_right_inj] at hshown
    obtain ⟨m, hm⟩ := hshown
    obtain ⟨hhead, -⟩ := List.cons.inj hm
    have hsymbol : x.symbol = y.symbol := by
      have hbare := congrArg Segment.symbol hhead
      exact hbare
    rw [hsymbol, hy] at hx
    cases hx

/-- What the walk shows is a front part of what lowering records, unless it strays. -/
theorem walk_prefix_iff {segments : List Node} {a : Session} {isRoot : Bool} {w : Cursor}
    (hnames : a.SameNames s.session) (h : c.Mirrors e) (hwalk : (sightFrom f a).walk c segments = some w)
    (hrun : lowerSegments expression isRoot (segments.map Node.unwrap) e f s = .ok d t) :
    w.path.bare <+: d.path.bare ↔ ¬ (sightFrom f a).StraysIn c segments := by
  induction segments generalizing isRoot c e s with
  | nil =>
    cases hwalk
    cases hrun
    rw [h.path]
    exact ⟨fun _ => id, fun _ => List.prefix_refl _⟩
  | cons n rest ih =>
    rw [List.map_cons, lowerSegments, h.isStatic.isStopped, if_neg Bool.false_ne_true] at hrun
    obtain ⟨e', u, hfirst, hrest⟩ := bind_eq_ok.mp hrun
    have hbehind := (Returns.lowerSegments false (rest.map Node.unwrap)).ok hrest
    obtain ⟨front, q, -, -, hpath, hend⟩ := hbehind
    by_cases hstrays : (sightFrom f a).Strays c n.unwrap
    · refine iff_of_false ?_ (not_not_intro (.inl hstrays))
      have hlowered : d.path = e.path ∨ ∃ y rest, y.symbol = none ∧ d.path = e.path ++ y :: rest := by
        obtain ⟨hsame, hends⟩ | ⟨y, hy, hshown⟩ := lowerSegment_strays hnames h hfirst hstrays
        · rw [hpath, (hend hends).1, hsame, List.append_nil]
          exact .inl rfl
        · exact .inr ⟨y, q, hy, by rw [hpath, hshown, List.append_assoc]; rfl⟩
      unfold Sight.walk at hwalk
      obtain habandoned | ⟨d₁, x, hgo | hstop, hx, hone⟩ := hstrays.walkSegment h.behind
      · rw [habandoned] at hwalk
        cases hwalk
      · rw [hgo] at hwalk
        have hwalked := Sight.walk_grows hwalk
        exact not_prefix_bare h.path.symm hx (hone ▸ hwalked) hlowered
      · rw [hstop] at hwalk
        cases hwalk
        exact not_prefix_bare h.path.symm hx (hone ▸ List.prefix_refl _) hlowered
    · unfold Sight.walk at hwalk
      split at hwalk
      · next d₁ hgo =>
        obtain ⟨e₁, hstep, hmirrors⟩ := Sight.step?_of_walkSegment h hstrays hgo
        rw [← Sight.step?_congr hnames] at hstep
        obtain rfl := lowerSegment_step hstep hfirst
        have hnames' := sameNames_of_lowerSegment h.isStatic.lateEntry hfirst
        rw [ih (hnames.trans hnames') hmirrors hwalk hrest]
        refine not_congr ⟨fun hin => .inr ⟨d₁, hgo, hin⟩, ?_⟩
        rintro (hin | ⟨d₂, hgo₂, hin⟩)
        · exact absurd hin hstrays
        · cases hgo.symm.trans hgo₂
          exact hin
      · next d₁ hstop =>
        cases hwalk
        refine iff_of_true ?_ ?_
        · have hfirst' := lowerSegment_stop hnames h hfirst hstrays hstop
          rw [hpath, Sight.bare_append]
          exact hfirst'.trans (List.prefix_append _ _)
        · rintro (hin | ⟨d₂, hgo, -⟩)
          · exact hstrays hin
          · rw [hstop] at hgo
            cases hgo
      · cases hwalk

/-! ## A node that is a chain -/

/-- Recording the chain that was split adds what walking along it shows, and nothing else. -/
theorem recordSplitChain_ok {node : Node} {p : Path} (hnode : Node.reassemble s.pointers = some node)
    (hp : (sightFrom f s.session).dependency? node = some p) (hrun : recordSplitChain f s = .ok () t) :
    ∀ q ∈ t.node.dependencies, q ∈ s.node.dependencies ∨ q = p := by
  replace hrun := sight_bind_ok hrun
  obtain ⟨w, u', hget, hrun⟩ := bind_eq_ok.mp hrun
  cases hget
  rw [hnode, Option.bind_some, hp] at hrun
  obtain ⟨⟨⟩, u', hforget, hrun⟩ := bind_eq_ok.mp hrun
  cases hforget
  obtain ⟨⟨⟩, u', hnote, hrun⟩ := bind_eq_ok.mp hrun
  cases hnote
  obtain ⟨-, rfl⟩ := recordRead_eq_ok.mp hrun
  intro q hq
  split at hq
  · exact (List.mem_append.mp hq).imp_right List.mem_singleton.mp
  · exact .inl hq

/-- If the walk along a chain resolves something, it is a front part of what lowering the chain records, subscripts
apart, exactly if the walk does not stray; and recording the chain after a split adds just that. -/
theorem dependency?_prefix_iff {node : Node} {p : Path} {type : Ty}
    (hp : (sightFrom f s.session).dependency? node = some p) (hrun : expression node f s = .ok type t) :
    ∃ segments c u, node.segments = .ok segments ∧ chainCursor expression segments node.span f s = .ok c u ∧
      recordRead c.path c.hasCall f u = .ok () t ∧
      (p.bare <+: c.path.bare ↔ ¬ (sightFrom f s.session).StraysIn (.start (segments.length == 1)) segments) ∧
      ∀ x y, s.session.SameNames x.session → Node.reassemble x.pointers = some node →
        recordSplitChain f x = .ok () y → ∀ q ∈ y.node.dependencies, q ∈ x.node.dependencies ∨ q = p := by
  obtain ⟨segments, w, hsegments, hne, hwalk, rfl⟩ := Sight.dependency?_eq_some hp
  rw [expression_segments hp hsegments, lowerChain_eq _ hne] at hrun
  obtain ⟨c, u, hcursor, hrun⟩ := bind_eq_ok.mp hrun
  obtain ⟨⟨⟩, x, hread, hend⟩ := bind_eq_ok.mp hrun
  cases hend
  refine ⟨segments, c, u, hsegments, hcursor, hread, ?_, fun x y hx hnode hsplit => ?_⟩
  · obtain ⟨u', w', hu, hlowered⟩ := chainCursor_ok hcursor
    exact walk_prefix_iff (hu.inert rfl).1 (Cursor.mirrors_start _) hwalk hlowered
  · exact recordSplitChain_ok hnode ((Sight.dependency?_sightFrom hx f node).trans hp) hsplit

/-- A class `Q` with a member `x`, and a class `C` with a static member `n` of that class. -/
def memberClasses : List Node :=
  let x : Variable := ⟨"x", ⟨"int", 0⟩, none, false, .isPublic, .stack, .nil⟩
  let n : Variable := ⟨"n", ⟨"Q", 0⟩, none, true, .isPublic, .stack, .nil⟩
  [.classDecl ⟨"Q", none, [x], [], [], .nil⟩, .classDecl ⟨"C", none, [n], [], [], .nil⟩]

/-- The session in which the classes are declared. -/
@[irreducible] def memberSession : Session := (Session.compile (.new {}) memberClasses .associative).2

/-- Behind the name of `C` stands its static member, and behind that a member of its object: the walk along `C.n.x`
does not stray. -/
theorem static_member_recorded :
    let s : State := { session := memberSession }
    let f : Frame := { block := 0, scope := .global, dialect := .associative, isTracked := true }
    let name (n : String) : Node := .identifier (.plain n .nil)
    let node : Node := .member (.member (name "C") (name "n") .dot false .nil) (name "x") .dot false .nil
    ∃ p type t c u, (sightFrom f s.session).dependency? node = some p ∧ expression node f s = .ok type t ∧
      chainCursor expression [name "C", name "n", name "x"] .nil f s = .ok c u ∧ p.length = 3 ∧
      p.bare <+: c.path.bare := by
  intro s f name node
  let c₁ : Cursor := { path := [.ofName "C" none (some 13)], type := .scalar 13, anchor := some 13 }
  let c₂ : Cursor :=
    { path := [.ofName "C" none (some 13), .ofName "n" (some ⟨.block 0, 0⟩) (some 13)], type := .scalar 12, depth := 1 }
  have hok := ok_of_matches (m := expression node) (f := f) (s := s) (by decide +kernel)
  obtain ⟨hp, hfirst, hsecond, hn, hstatic⟩ :
      ((sightFrom f s.session).dependency? node).map List.length = some 3 ∧
      (sightFrom f s.session).walkSegment (.start false) (name "C") = .go c₁ ∧
      (sightFrom f s.session).walkSegment { c₁ with depth := 1 } (name "n") = .go c₂ ∧
      (sightFrom f s.session).segmentTarget "n" { c₁ with depth := 1 } = .symbol ⟨.block 0, 0⟩ ∧
      (s.session.symbol? ⟨.block 0, 0⟩).map Symbol.isStatic = some true := by
    decide +kernel
  clear_value s
  obtain ⟨p, hd, hlength⟩ := Option.map_eq_some_iff.mp hp
  obtain ⟨type, t, hrun⟩ := hok
  obtain ⟨segments, c, u, hsegments, hcursor, -, hiff, -⟩ := dependency?_prefix_iff hd hrun
  cases hsegments
  refine ⟨p, type, t, c, u, hd, hrun, hcursor, hlength, hiff.mpr ?_⟩
  rintro (hstrays | ⟨d, hgo, hstrays | ⟨d', hgo', hstrays | ⟨_, _, hstrays⟩⟩⟩)
  · cases hstrays with
    | throughClass _ hanchor => cases hanchor
  · cases hfirst.symm.trans hgo
    cases hstrays with
    | throughClass hname _ hr hx hinstance =>
      cases hname
      cases hn.symm.trans hr
      obtain ⟨y, hy, hstatic⟩ := Option.map_eq_some_iff.mp hstatic
      cases hy.symm.trans hx
      rw [hinstance] at hstatic
      cases hstatic
  · cases hfirst.symm.trans hgo
    cases hsecond.symm.trans hgo'
    cases hstrays with
    | throughClass _ hanchor => cases hanchor
  · cases hstrays

/-- The walk along `Q.x` shows the member, which is not static; lowering shows the class alone. If the chain is split,
the statement depends on the member all the same. -/
theorem instance_member_strays :
    let s : State := { session := memberSession }
    let f : Frame := { block := 0, scope := .global, dialect := .associative, isTracked := true }
    let name (n : String) : Node := .identifier (.plain n .nil)
    let node : Node := .member (name "Q") (name "x") .dot false .nil
    let inputs (o : Options) : List (List (List String)) :=
      ((Session.compile (.new o) (memberClasses ++ [.assign (name "y") node .nil]) .associative).2.nodes 0).toList.map
        fun n => n.dependencies.map fun p => p.map Segment.name
    (∃ p type t c u, (sightFrom f s.session).dependency? node = some p ∧ expression node f s = .ok type t ∧
      chainCursor expression [name "Q", name "x"] .nil f s = .ok c u ∧ ¬ p.bare <+: c.path.bare) ∧
      inputs {} = [[["Q"]]] ∧ inputs { fullSsa := true } = [[["Q"], ["Q", "x"]], [["%ssa_0"]]] := by
  intro s f name node inputs
  refine ⟨?_, by decide +kernel⟩
  have hp : ((sightFrom f s.session).dependency? node).map List.length = some 2 := by decide +kernel
  have hok := ok_of_matches (m := expression node) (f := f) (s := s) (by decide +kernel)
  obtain ⟨c, u, hc⟩ := ok_of_matches (m := chainCursor expression [name "Q", name "x"] .nil) (f := f) (s := s)
    (by decide +kernel)
  have hone := of_decide_eq_true (of_ok (p := fun c _ => decide (c.path.length = 1)) (by decide +kernel) hc)
  clear_value s
  obtain ⟨p, hd, hlength⟩ := Option.map_eq_some_iff.mp hp
  obtain ⟨type, t, hrun⟩ := hok
  refine ⟨p, type, t, c, u, hd, hrun, hc, fun hfront => ?_⟩
  have hle := hfront.length_le
  simp only [Path.bare, List.length_map, hlength, hone] at hle
  omega

end Lowering

end Diglot
