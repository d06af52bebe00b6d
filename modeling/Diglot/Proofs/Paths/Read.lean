import Diglot.Proofs.Mild.Expression
import Diglot.Proofs.Reads.Expression
import Diglot.Proofs.Graph.Node

/-! # Chains of names that are resolved statically

A name in a chain is resolved statically if it stands for the current object, for a symbol or for a class.
`Sight.stepName?` moves a cursor over such a name, and `Sight.follow?` over a chain of them. Lowering the
chain moves its cursor in the same way (`lowerSegments_follow`), and if it has no subscripts, it declares
nothing and leaves the current node as it is (`inert_lowerSegments`).
-/

set_option autoImplicit false

namespace Diglot.Lowering

namespace Sight

/-- Moves over a name that is resolved statically. Through the name of a class only a static member is. -/
def stepName? (v : Sight) (c : Cursor) (ident : Identifier) : Option Cursor :=
  if ident.isThis && c.depth == 0 then
    let cls := v.frame.scope.classScope
    some ({ c with type := objectType cls, depth := c.depth + 1 }.track (.ofName ident.name none cls))
  else
    match v.segmentTarget ident.name c with
    | .symbol r =>
      match v.session.symbol? r with
      | none => none
      | some x =>
        if x.isStatic || c.anchor.isNone then
          let literals := literalDims v.frame.dialect ident.dims
          let c := c.track { Segment.ofName ident.name (some r) x.classScope with dims := literals }
          some { c with
            type := x.type.subscripted ident.dims.length, depth := c.depth + 1, anchor := none }
        else none
    | .cls id =>
      let c := c.track (.ofName ident.name none (some id))
      some { c with type := .scalar id, depth := c.depth + 1, anchor := some id }
    | _ => none

/-- Moves over names that are all resolved statically. -/
def follow? (v : Sight) (c : Cursor) (idents : List Identifier) : Option Cursor :=
  idents.foldlM v.stepName? c

/-! ## What the cursor shows -/

variable {v : Sight} {c d : Cursor} {ident : Identifier}

/-- A name that is resolved statically is a segment of the dependency, and the chain goes on. -/
theorem stepName?_cursor (h : v.stepName? c ident = some d) (hlate : c.isLate = false) :
    d.isLate = false ∧ d.isStopped = c.isStopped ∧ d.hasCall = c.hasCall ∧ d.depth = c.depth + 1 ∧
      ∃ x, d.path = c.path ++ [x] ∧ x.kind = .symbol ∧ x.name = ident.name := by
  unfold stepName? at h
  split at h
  · cases h
    simp [Cursor.track, hlate, Segment.ofName]
  · split at h
    · split at h
      · cases h
      · split at h
        · cases h
          simp [Cursor.track, hlate, Segment.ofName]
        · cases h
    · cases h
      simp [Cursor.track, hlate, Segment.ofName]
    · cases h

theorem follow?_cons (ident : Identifier) (rest : List Identifier) :
    v.follow? c (ident :: rest) = (v.stepName? c ident).bind fun d => v.follow? d rest := rfl

theorem follow?_concat (idents : List Identifier) (ident : Identifier) :
    v.follow? c (idents ++ [ident]) = (v.follow? c idents).bind fun d => v.stepName? d ident := by
  unfold follow?
  rw [List.foldlM_append]
  cases List.foldlM v.stepName? c idents with
  | none => rfl
  | some d => simp

theorem follow?_cursor {idents : List Identifier} (h : v.follow? c idents = some d)
    (hlate : c.isLate = false) :
    d.isLate = false ∧ d.isStopped = c.isStopped ∧ d.hasCall = c.hasCall ∧
      d.depth = c.depth + idents.length ∧ ∃ p, d.path = c.path ++ p ∧ p.length = idents.length := by
  induction idents generalizing c with
  | nil =>
    cases h
    exact ⟨hlate, rfl, rfl, rfl, [], by simp⟩
  | cons ident rest ih =>
    rw [follow?_cons] at h
    obtain ⟨e, he, hrest⟩ := Option.bind_eq_some_iff.mp h
    obtain ⟨hlate', hstop, hcall, hdepth, x, hpath, -⟩ := stepName?_cursor he hlate
    obtain ⟨hlate'', hstop', hcall', hdepth', p, hpath', hlength⟩ := ih hrest hlate'
    refine ⟨hlate'', hstop'.trans hstop, hcall'.trans hcall, ?_, x :: p, ?_, by simp [hlength]⟩
    · rw [hdepth', hdepth, List.length_cons]
      omega
    · rw [hpath', hpath, List.append_assoc]
      rfl

/-! ## Where names are looked up alike -/

section
variable {s t : Session} (h : s.SameNames t) (f : Frame)
include h

theorem sightFrom_blocks : (sightFrom f t).blocks = (sightFrom f s).blocks := by
  unfold sightFrom
  rw [h.enclosing?_eq]

theorem stepName?_congr (c : Cursor) (ident : Identifier) :
    (sightFrom f t).stepName? c ident = (sightFrom f s).stepName? c ident := by
  have hsight : sightFrom f t = ⟨t, { (sightFrom f s).frame with isGuided := f.isGuided },
      (sightFrom f s).blocks⟩ := by
    unfold sightFrom
    rw [h.enclosing?_eq]
  have htarget := segmentTarget_congr (v := sightFrom f s) h f.isGuided ident.name c
  rw [← hsight] at htarget
  have hsymbol (r : SymbolRef) : (sightFrom f t).session.symbol? r = (sightFrom f s).session.symbol? r :=
    h.symbol?_eq r
  unfold stepName?
  simp only [htarget, hsymbol]
  rfl

theorem follow?_congr (c : Cursor) (idents : List Identifier) :
    (sightFrom f t).follow? c idents = (sightFrom f s).follow? c idents := by
  have hstep : (sightFrom f t).stepName? = (sightFrom f s).stepName? := by
    funext c ident
    exact stepName?_congr h f c ident
  unfold follow?
  rw [hstep]

end

/-- How statements record what they read makes no difference to what names stand for. -/
theorem follow?_frame {f g : Frame} (hsite : g.site = f.site) (hanchor : g.anchor = f.anchor) (s : Session)
    (c : Cursor) (idents : List Identifier) :
    (sightFrom g s).follow? c idents = (sightFrom f s).follow? c idents := by
  obtain ⟨block, scope, dialect⟩ := f
  obtain ⟨block', scope', dialect'⟩ := g
  cases hsite
  cases hanchor
  rfl

end Sight

/-! ## Lowering the chain -/

variable {part : LowerPart} {f : Frame} {s t : State} {c d e : Cursor} {ident : Identifier}

theorem sight_ok {v : Sight} (h : sight f s = .ok v t) : t = s ∧ v = sightFrom f s.session := by
  obtain ⟨rfl, hv, hblocks, -⟩ := sight_eq_ok.mp h
  refine ⟨rfl, hv.trans ?_⟩
  unfold sightFrom
  rw [hblocks]
  rfl

/-- What looks at the session goes on with what there is to see. -/
theorem sight_bind_ok {α : Type} {next : Sight → Lower α} {a : α} (h : (sight >>= next) f s = .ok a t) :
    next (sightFrom f s.session) f s = .ok a t := by
  obtain ⟨v, u, hsight, h⟩ := bind_eq_ok.mp h
  obtain ⟨rfl, rfl⟩ := sight_ok hsight
  exact h

theorem chainSegments_run {n : Node} {segments : List Node} (hrun : chainSegments n f s = .ok segments t) :
    n.segments = .ok segments ∧ s = t := by
  unfold chainSegments at hrun
  cases hparts : n.segments with
  | ok parts =>
    rw [hparts] at hrun
    cases hrun
    exact ⟨rfl, rfl⟩
  | error span =>
    rw [hparts] at hrun
    cases hrun

theorem lowerThis_ok (hrun : lowerThis ident c f s = .ok d t) :
    d = { c with type := objectType f.scope.classScope, depth := c.depth + 1 }.track
      (.ofName ident.name none f.scope.classScope) := by
  obtain ⟨cls, u, hcls, hrun⟩ := bind_eq_ok.mp hrun
  cases hcls
  rw [run_ite] at hrun
  split at hrun
  · obtain ⟨_, _, -, hrun⟩ := bind_eq_ok.mp hrun
    cases hrun
    rfl
  · obtain ⟨_, _, -, hrun⟩ := bind_eq_ok.mp hrun
    cases hrun
    rfl

theorem lowerClassName_ok {cls : Nat} (hrun : lowerClassName ident c cls f s = .ok d t) :
    d = { c.track (.ofName ident.name none (some cls)) with
      type := .scalar cls, depth := (c.track (.ofName ident.name none (some cls))).depth + 1
      anchor := some cls } := by
  unfold lowerClassName at hrun
  rw [run_ite] at hrun
  split at hrun
  · obtain ⟨_, _, -, hrun⟩ := bind_eq_ok.mp hrun
    cases hrun
    rfl
  · obtain ⟨_, _, -, hrun⟩ := bind_eq_ok.mp hrun
    cases hrun
    rfl

theorem lowerSymbol_ok {r : SymbolRef} {x : Symbol} (hx : s.session.symbol? r = some x)
    (hstatic : (x.isStatic || c.anchor.isNone) = true)
    (hrun : lowerSymbol part ident c r f s = .ok d t) :
    d = { c.track { Segment.ofName ident.name (some r) x.classScope with
        dims := literalDims f.dialect ident.dims } with
      type := x.type.subscripted ident.dims.length
      depth := (c.track { Segment.ofName ident.name (some r) x.classScope with
        dims := literalDims f.dialect ident.dims }).depth + 1
      anchor := none } := by
  have hanchor : (if x.isStatic then none else c.anchor) = none := by
    rw [Bool.or_eq_true, Option.isNone_iff_eq_none] at hstatic
    obtain hstatic | hnone := hstatic
    · rw [if_pos hstatic]
    · rw [hnone, ite_self]
  obtain ⟨y, u, hy, hrun⟩ := bind_eq_ok.mp hrun
  rw [run_getSymbol, hx] at hy
  cases hy
  rw [hanchor] at hrun
  obtain ⟨_, u, -, hrun⟩ := bind_eq_ok.mp hrun
  obtain ⟨_, w, hread, hrun⟩ := bind_eq_ok.mp hrun
  cases hread
  obtain ⟨_, w', -, hrun⟩ := bind_eq_ok.mp hrun
  dsimp only at hrun
  rw [run_ite] at hrun
  split at hrun
  · obtain ⟨_, _, -, hrun⟩ := bind_eq_ok.mp hrun
    cases hrun
    rfl
  · rw [run_ite] at hrun
    split at hrun
    · obtain ⟨_, _, -, hrun⟩ := bind_eq_ok.mp hrun
      obtain ⟨_, _, -, hrun⟩ := bind_eq_ok.mp hrun
      cases hrun
      rfl
    · obtain ⟨_, _, -, hrun⟩ := bind_eq_ok.mp hrun
      cases hrun
      rfl

/-- Lowering a name moves the cursor as resolving it statically does. -/
theorem lowerIdentifier_step (hstep : (sightFrom f s.session).stepName? c ident = some d)
    (hrun : lowerIdentifier part ident c f s = .ok e t) : e = d := by
  unfold Sight.stepName? at hstep
  unfold lowerIdentifier at hrun
  split at hstep
  · next hthis =>
    rw [if_pos hthis] at hrun
    cases hstep
    exact lowerThis_ok hrun
  · next hthis =>
    rw [if_neg hthis] at hrun
    replace hrun := sight_bind_ok hrun
    split at hstep
    · next r hr =>
      rw [hr] at hrun
      split at hstep
      · cases hstep
      · next x hx =>
        split at hstep
        · next hstatic =>
          cases hstep
          exact lowerSymbol_ok hx hstatic hrun
        · cases hstep
    · next id hid =>
      rw [hid] at hrun
      cases hstep
      exact lowerClassName_ok hrun
    · cases hstep

/-- Names without subscripts declare nothing and leave the current node as it is. -/
theorem inert_lowerSegments {idents : List Identifier} (hplain : ∀ i ∈ idents, i.dims = [])
    (isRoot : Bool) (c : Cursor) :
    Tame true false (lowerSegments part isRoot (idents.map .identifier) c) := by
  induction idents generalizing isRoot c with
  | nil => exact .pure _
  | cons ident rest ih =>
    have hname : Tame true true (lowerIdentifier part ident c) :=
      .lowerIdentifier_plain (hplain ident (List.mem_cons_self ..)) c
    refine .ite (.pure _) (.bind hname.weaken fun c => ?_)
    exact ih (fun i hi => hplain i (List.mem_cons_of_mem ident hi)) false c

theorem lowerSegments_follow {idents : List Identifier} (hplain : ∀ i ∈ idents, i.dims = [])
    (hgoes : c.isStopped = false) (hlate : c.isLate = false) {isRoot : Bool}
    (hfollow : (sightFrom f s.session).follow? c idents = some d)
    (hrun : lowerSegments part isRoot (idents.map .identifier) c f s = .ok e t) : e = d := by
  induction idents generalizing isRoot c s with
  | nil =>
    cases hfollow
    cases hrun
    rfl
  | cons ident rest ih =>
    rw [Sight.follow?_cons] at hfollow
    obtain ⟨c', hstep, hfollow⟩ := Option.bind_eq_some_iff.mp hfollow
    rw [List.map_cons, lowerSegments, hgoes, if_neg Bool.false_ne_true] at hrun
    obtain ⟨e', u, hfirst, hrun⟩ := bind_eq_ok.mp hrun
    have hname : Tame true true (lowerIdentifier part ident c) :=
      .lowerIdentifier_plain (hplain ident (List.mem_cons_self ..)) c
    obtain ⟨hnames, -⟩ := (hname.keeps_ok hfirst).inert rfl
    obtain rfl := lowerIdentifier_step hstep hfirst
    obtain ⟨hlate', hstop, -⟩ := Sight.stepName?_cursor hstep hlate
    refine ih (fun i hi => hplain i (List.mem_cons_of_mem ident hi)) (hstop.trans hgoes) hlate' ?_ hrun
    rw [Sight.follow?_congr hnames]
    exact hfollow

end Diglot.Lowering

/-! ## Reading a chain

The statement `y = t`, whose value is a chain of names that is resolved statically, depends on the path of
that chain and on nothing else (`dependencies_of_read`).
-/

namespace Diglot.Lowering

variable {part : LowerPart} {f : Frame} {s t : State} {d : Cursor} {idents : List Identifier}
  {target value : Node} {span : Span}

/-! ### A statement, step by step -/

/-- The node that a statement begins with. -/
def openNode (f : Frame) (s : State) (isTemporary : Bool) : GraphNode :=
  { uid := s.session.nextUid, block := f.block, procedure := f.scope.procedure
    classScope := f.scope.classScope, isTemporary }

/-- The value of a statement is probed and lowered, then comes the store and the end of the statement. -/
theorem graphStatement_recorded {isTemporary isLast : Bool} {n : GraphNode}
    (hrun : graphStatement target value span isTemporary isLast f s = .ok n t) :
    ∃ v type w w' path x y startPc endPc k message,
      probe value f { s with session := { s.session with nextUid := s.session.nextUid + 1 } } = .ok () v ∧
      expression value { f with isTracked := true } { v with node := openNode f s isTemporary } =
        .ok type w ∧ RecordsChain isLast { f with isTracked := true } w w' ∧
      assignTo target (w'.refined type) { f with isTracked := true } w' = .ok path x ∧ emitDepx f x = .ok k y ∧
      t = { y with session := y.session.note .trace .code message } ∧
      n = { x.node with startPc, endPc, updated := some path } := by
  obtain ⟨fresh, s₁, hopened, hrun⟩ := bind_eq_ok.mp hrun
  obtain ⟨⟨⟩, v, hprobed, hrun⟩ := bind_eq_ok.mp hrun
  obtain ⟨⟨⟨p, q, path⟩, node⟩, x, htracked, hrun⟩ := bind_eq_ok.mp hrun
  obtain ⟨k, y, hemit, hrun⟩ := bind_eq_ok.mp hrun
  obtain ⟨⟨⟩, y', hnote, hrun⟩ := bind_eq_ok.mp hrun
  cases hnote
  cases hrun
  rw [run_freshNode] at hopened
  cases hopened
  rw [run_tracking] at htracked
  split at htracked
  case h_2 => cases htracked
  next result x hvalue =>
  cases htracked
  obtain ⟨type, w, w', hvalued, -, -, hrecorded, hassign⟩ := lowerValueAndStore_ok hvalue
  exact ⟨v, type, w, w', path, _, _, p, q, k, _, hprobed, hvalued, hrecorded, hassign, hemit, rfl, rfl⟩

/-- Between the value and the store the current node keeps its identity, and nothing happens where no chain ends. -/
theorem graphStatement_steps {isTemporary isLast : Bool} {n : GraphNode}
    (hrun : graphStatement target value span isTemporary isLast f s = .ok n t) :
    ∃ v type w w' path x y startPc endPc k message,
      probe value f { s with session := { s.session with nextUid := s.session.nextUid + 1 } } = .ok () v ∧
      expression value { f with isTracked := true } { v with node := openNode f s isTemporary } =
        .ok type w ∧ Along w w' ∧ (isLast = false → w' = w) ∧
      assignTo target (w'.refined type) { f with isTracked := true } w' = .ok path x ∧ emitDepx f x = .ok k y ∧
      t = { y with session := y.session.note .trace .code message } ∧
      n = { x.node with startPc, endPc, updated := some path } := by
  obtain ⟨v, type, w, w', path, x, y, p, q, k, message, hprobed, hvalued, hrecorded, hassign, hemit, ht, hn⟩ :=
    graphStatement_recorded hrun
  refine ⟨v, type, w, w', path, x, y, p, q, k, message, hprobed, hvalued, hrecorded.along, fun hnot => ?_, hassign,
    hemit, ht, hn⟩
  rw [hnot] at hrecorded
  exact hrecorded

/-- What follows the store neither declares anything nor changes the node but for its range and what it writes. -/
theorem graphStatement_ok {isTemporary isLast : Bool} {n : GraphNode}
    (hrun : graphStatement target value span isTemporary isLast f s = .ok n t) :
    ∃ v type w w' path x startPc endPc,
      probe value f { s with session := { s.session with nextUid := s.session.nextUid + 1 } } = .ok () v ∧
      expression value { f with isTracked := true } { v with node := openNode f s isTemporary } =
        .ok type w ∧ Along w w' ∧ (isLast = false → w' = w) ∧
      assignTo target (w'.refined type) { f with isTracked := true } w' = .ok path x ∧ Kept true x t ∧
      n = { x.node with startPc, endPc, updated := some path } := by
  obtain ⟨v, type, w, w', path, x, y, p, q, k, message, hprobed, hvalued, hbetween, hsame, hassign, hemit, rfl, hn⟩ :=
    graphStatement_steps hrun
  have hdepx : Tame true false emitDepx := .emitSilent _ _
  have hnoting : Tame true false (note .trace .code message) := .note _ _ _
  have hnoted : Kept true y { y with session := y.session.note .trace .code message } := hnoting.keeps f y
  exact ⟨v, type, w, w', path, x, p, q, hprobed, hvalued, hbetween, hsame, hassign,
    (hdepx.keeps_ok hemit).trans hnoted, hn⟩

/-! ### The value -/

theorem map_unwrap_identifiers (idents : List Identifier) :
    (idents.map Node.identifier).map Node.unwrap = idents.map Node.identifier := by
  rw [List.map_map]
  rfl

/-- A statement that had no dependency yet has the recorded path for its only one. -/
theorem dependencies_of_recordRead {path : Path} {viaCall : Bool} (htracked : f.isTracked = true)
    (hnone : s.node.dependencies = []) (hpath : path ≠ [])
    (hrun : recordRead path viaCall f s = .ok () t) : t.node.dependencies = [path] := by
  have hlacks : s.node.lacks path = true := by simp [GraphNode.lacks, hnone, hpath]
  obtain ⟨-, rfl⟩ := recordRead_eq_ok.mp hrun
  simp [htracked, hlacks, GraphNode.reading, hnone]

/-- A chain is lowered segment by segment and then recorded; what is emitted before and behind neither
declares anything nor changes the node. -/
theorem lowerChain_ok {segments : List Node} {type : Ty}
    (hrun : lowerChain part segments span f s = .ok type t) :
    segments ≠ [] ∧ ∃ u c w x, Kept true s u ∧
      lowerSegments part true (segments.map Node.unwrap) (.start (segments.length == 1)) f u = .ok c w ∧
      Kept true w x ∧ recordRead c.path c.hasCall f x = .ok () t ∧
      type = if c.isStopped then .null else c.type := by
  have hsegments {u : State} (hu : Kept true s u)
      (hrun : finishChain part (segments.map Node.unwrap) ((segments.map Node.unwrap).length == 1) span f u = .ok type t) :
      ∃ u c w x, Kept true s u ∧
        lowerSegments part true (segments.map Node.unwrap) (.start (segments.length == 1)) f u = .ok c w ∧
        Kept true w x ∧ recordRead c.path c.hasCall f x = .ok () t ∧
        type = if c.isStopped then .null else c.type := by
    rw [List.length_map] at hrun
    obtain ⟨c, w, hwalk, hrun⟩ := bind_eq_ok.mp hrun
    have hrecord {x : State} (hx : Kept true w x) (hrun : (do
        recordRead c.path c.hasCall
        return if c.isStopped then .null else c.type : Lower Ty) f x = .ok type t) :
        ∃ u c w x, Kept true s u ∧ lowerSegments part true (segments.map Node.unwrap)
            (.start (segments.length == 1)) f u = .ok c w ∧
          Kept true w x ∧ recordRead c.path c.hasCall f x = .ok () t ∧
          type = if c.isStopped then .null else c.type := by
      obtain ⟨⟨⟩, y, hrecord, hrun⟩ := bind_eq_ok.mp hrun
      cases hrun
      exact ⟨u, c, w, x, hu, hwalk, hx, hrecord, rfl⟩
    rw [run_ite] at hrun
    split at hrun
    · obtain ⟨_, x, hpush, hrun⟩ := bind_eq_ok.mp hrun
      have hlist : Tame true false (emitPushlist c.depth c.afterCall span) := .emitPushlist _ _ _
      exact hrecord (hlist.keeps_ok hpush) hrun
    · exact hrecord (.refl w) hrun
  unfold lowerChain at hrun
  rw [run_ite] at hrun
  split at hrun
  · cases hrun
  · next hne =>
    refine ⟨by simpa using hne, ?_⟩
    obtain ⟨on, u, hwanted, hrun⟩ := bind_eq_ok.mp hrun
    have hguides : Tame true false guidesWanted := .guidesWanted
    have hu := hguides.keeps_ok hwanted
    rw [run_ite] at hrun
    split at hrun
    · obtain ⟨_, w, hemit, hrun⟩ := bind_eq_ok.mp hrun
      have hemits : Tame true false
          (emitGuides (((segments.map Node.unwrap).getLast?.map Node.guides).getD [])) := .emitGuides _
      exact hsegments (hu.trans (hemits.keeps_ok hemit)) hrun
    · exact hsegments hu hrun

/-- A chain of names is recorded as the path that resolving it yields. -/
theorem lowerChain_follow (hplain : ∀ i ∈ idents, i.dims = []) (htracked : f.isTracked = true) (hnone : s.node.dependencies = [])
    (hfollow : (sightFrom f s.session).follow? (.start (idents.length == 1)) idents = some d) {type : Ty}
    (hrun : lowerChain part (idents.map .identifier) span f s = .ok type t) :
    t.node.dependencies = [d.path] := by
  obtain ⟨hne, u, c, w, x, hu, hwalk, hx, hrecord, -⟩ := lowerChain_ok hrun
  have hpath : d.path ≠ [] := by
    obtain ⟨-, -, -, -, p, hp, hlength⟩ := Sight.follow?_cursor hfollow rfl
    rintro hempty
    rw [hp] at hempty
    rw [(List.append_eq_nil_iff.mp hempty).2, List.length_nil] at hlength
    simp [List.length_eq_zero_iff.mp hlength.symm] at hne
  rw [map_unwrap_identifiers, List.length_map] at hwalk
  rw [← Sight.follow?_congr (hu.inert rfl).1] at hfollow
  obtain rfl := lowerSegments_follow hplain rfl rfl hfollow hwalk
  have hw := (inert_lowerSegments hplain _ _).keeps_ok hwalk
  refine dependencies_of_recordRead htracked ?_ hpath hrecord
  rw [(((hu.trans hw).trans hx).inert rfl).2, hnone]

/-- An expression that is a chain of names is lowered as one. -/
theorem expression_chain (hsegments : value.segments = .ok (idents.map .identifier)) {type : Ty}
    (hrun : expression value f s = .ok type t) :
    ∃ span, lowerChain expression (idents.map .identifier) span f s = .ok type t := by
  rw [expression_eq] at hrun
  unfold lowerNode at hrun
  cases value with
  | identifier ident =>
    rw [← Except.ok.inj hsegments]
    exact ⟨_, hrun⟩
  | member left right op lastFactor span =>
    unfold chainSegments at hrun
    rw [hsegments] at hrun
    exact ⟨span, hrun⟩
  | _ =>
    cases idents with
    | nil => cases hsegments
    | cons ident rest => cases rest <;> cases hsegments

/-! ### Looking ahead -/

/-- A name that is resolved statically is declared already, or names a class. -/
theorem declareForward_step {ident : Identifier} (hanchor : f.anchor = none)
    (hthis : ident.isThis = false) {isSingle : Bool}
    (hstep : (sightFrom f s.session).stepName? (.start isSingle) ident = some d)
    (hrun : declareForward ident.name f s = .ok () t) : t = s := by
  unfold declareForward at hrun
  simp only [run_bind, run_read, run_ite] at hrun
  split at hrun
  · cases hsight : sight f s with
    | error e u =>
      rw [hsight] at hrun
      cases hrun
    | ok v u =>
      obtain ⟨rfl, rfl⟩ := sight_ok hsight
      rw [hsight] at hrun
      dsimp only at hrun
      split at hrun
      · next hfree =>
        exfalso
        rw [Bool.and_eq_true, decide_eq_true_eq, Option.isNone_iff_eq_none] at hfree
        have htarget : (sightFrom f u.session).segmentTarget ident.name (.start isSingle) = .unbound := by
          have hnone : (sightFrom f u.session).frame.anchor = none := hanchor
          simp [Sight.segmentTarget, Cursor.start, Sight.rootTarget, hnone, hfree.1, hfree.2]
        unfold Sight.stepName? at hstep
        rw [hthis, htarget] at hstep
        cases hstep
      · cases hrun
        rfl
  · cases hrun
    rfl

/-- Looking ahead into a chain of names that is resolved statically declares nothing. -/
theorem probe_follow (hanchor : f.anchor = none) (hplain : ∀ i ∈ idents, i.dims = [])
    (hsegments : value.segments = .ok (idents.map .identifier))
    (hfollow : (sightFrom f s.session).follow? (.start (idents.length == 1)) idents = some d)
    (hrun : probe value f s = .ok () t) : t = s := by
  have hchain {part : ProbePart} (hrun : probeChain part (idents.map .identifier) f s = .ok () t) :
      t = s := by
    unfold probeChain at hrun
    rw [run_ite] at hrun
    split at hrun
    · cases hrun
    rw [map_unwrap_identifiers, List.length_map] at hrun
    cases idents with
    | nil =>
      cases hrun
      rfl
    | cons ident rest =>
      cases rest with
      | nil =>
        rw [Sight.follow?_cons] at hfollow
        obtain ⟨e, hstep, -⟩ := Option.bind_eq_some_iff.mp hfollow
        obtain ⟨⟨⟩, u, hfirst, hrun⟩ := bind_eq_ok.mp hrun
        cases hrun
        change probeIdentifier part ident f s = .ok () t at hfirst
        unfold probeIdentifier at hfirst
        rw [hplain ident (List.mem_cons_self ..)] at hfirst
        obtain ⟨⟨⟩, u, hdims, hrest⟩ := bind_eq_ok.mp hfirst
        cases hdims
        rw [run_ite] at hrest
        split at hrest
        · next hthis => exact declareForward_step hanchor (by simpa using hthis) hstep hrest
        · cases hrest
          rfl
      | cons next rest =>
        have hnothing (l : List Identifier) : ∀ u, (l.map Node.identifier).forM
            (probeSegment part false) f u = .ok () u := by
          induction l with
          | nil => exact fun _ => rfl
          | cons i l ih => exact fun u => ih u
        have hskipped := hnothing (ident :: next :: rest) s
        have hlong : ((ident :: next :: rest).length == 1) = false := by simp
        rw [hlong] at hrun
        exact (EStateM.Result.ok.inj (hrun.symm.trans hskipped)).2
  unfold probe at hrun
  cases hw : value.weight with
  | zero =>
    have := value.weight_pos
    omega
  | succ n =>
    rw [hw] at hrun
    unfold probeWithin probeNode at hrun
    cases value with
    | identifier ident =>
      rw [← Except.ok.inj hsegments] at hchain
      exact hchain hrun
    | member left right op lastFactor span =>
      unfold chainSegments at hrun
      rw [hsegments] at hrun
      exact hchain hrun
    | _ =>
      cases idents with
      | nil => cases hsegments
      | cons ident rest => cases rest <;> cases hsegments

/-! ### The statement -/

/-- A plain name is stored where it was found or declared. -/
theorem storeIdentifier_steps {ident : Identifier} {type : Ty} {path : Path} (hplain : ident.dims = [])
    (hrun : storeIdentifier ident type f s = .ok path t) :
    ∃ r u x k, targetSymbol ident type f s = .ok r u ∧ u.session.symbol? r = some x ∧
      emitStore x 0 ident.span f u = .ok k t ∧ path = [.ofName ident.name (some r) x.classScope] := by
  obtain ⟨r, u, htarget, hrun⟩ := bind_eq_ok.mp hrun
  obtain ⟨x, u', hx, hrun⟩ := bind_eq_ok.mp hrun
  rw [run_getSymbol] at hx
  split at hx
  case h_2 => cases hx
  next y hy =>
  cases hx
  rw [hplain] at hrun
  obtain ⟨⟨⟩, w, hdims, hrun⟩ := bind_eq_ok.mp hrun
  cases hdims
  obtain ⟨k, w', hstore, hrun⟩ := bind_eq_ok.mp hrun
  cases hrun
  exact ⟨r, u, x, k, htarget, hy, hstore, rfl⟩

/-- A store into a plain name leaves the current node as it is. -/
theorem storeIdentifier_ok {ident : Identifier} {type : Ty} {path : Path} (hplain : ident.dims = [])
    (hrun : storeIdentifier ident type f s = .ok path t) :
    ∃ r u x, targetSymbol ident type f s = .ok r u ∧ u.session.symbol? r = some x ∧
      path = [.ofName ident.name (some r) x.classScope] ∧ Kept true u t := by
  obtain ⟨r, u, x, k, htarget, hx, hstore, hpath⟩ := storeIdentifier_steps hplain hrun
  have hemits : Tame true false (emitStore x 0 ident.span) := .emitStore _ _ _
  exact ⟨r, u, x, htarget, hx, hpath, hemits.keeps_ok hstore⟩

/-- Of the state, finding the symbol that a store goes to changes the session alone. -/
theorem targetSymbol_state {ident : Identifier} {type : Ty} {r : SymbolRef}
    (hrun : targetSymbol ident type f s = .ok r t) : t = { s with session := t.session } := by
  have hallocate {u : State} {e : Declaration} (hu : u = { s with session := u.session })
      (hrun : allocate e f u = .ok r t) : t = { s with session := t.session } := by
    obtain ⟨-, _, hok⟩ | ⟨_, _, herror⟩ := allocate_cases e f u
    · rw [hok] at hrun
      cases hrun
      rw [hu]
    · rw [herror] at hrun
      cases hrun
  replace hrun := sight_bind_ok hrun
  cases hr : (sightFrom f s.session).resolve ident.name with
  | found r' =>
    rw [hr] at hrun
    cases hrun
    rfl
  | inaccessible r' =>
    rw [hr] at hrun
    obtain ⟨⟨⟩, w, hreport, hrun⟩ := bind_eq_ok.mp hrun
    cases hreport
    exact hallocate rfl hrun
  | unbound =>
    rw [hr] at hrun
    exact hallocate rfl hrun

theorem targetSymbol_node {ident : Identifier} {type : Ty} {r : SymbolRef}
    (hrun : targetSymbol ident type f s = .ok r t) : t.node = s.node := by
  rw [targetSymbol_state hrun]

/-- The statement `y = t` depends on the path of `t` alone. -/
theorem dependencies_of_read {y : Identifier} (hanchor : f.anchor = none) (hy : y.dims = [])
    (hplain : ∀ i ∈ idents, i.dims = []) (hsegments : value.segments = .ok (idents.map .identifier))
    (hfollow : (sightFrom f s.session).follow? (.start (idents.length == 1)) idents = some d)
    {isTemporary : Bool} {n : GraphNode}
    (hrun : graphStatement (.identifier y) value span isTemporary false f s = .ok n t) :
    n.dependencies = [d.path] := by
  obtain ⟨v, type, w, w', path, x, p, q, hprobe, hvalue, -, hsame, hstore, -, rfl⟩ :=
    graphStatement_ok hrun
  obtain rfl := hsame rfl
  have hopen : s.session.SameNames { s.session with nextUid := s.session.nextUid + 1 } :=
    ⟨rfl, rfl, rfl, rfl, rfl, rfl⟩
  have hopened := hfollow
  rw [← Sight.follow?_congr hopen] at hopened
  obtain rfl := probe_follow (s := { s with
    session := { s.session with nextUid := s.session.nextUid + 1 } }) hanchor hplain hsegments hopened hprobe
  obtain ⟨span, hchain⟩ := expression_chain hsegments hvalue
  have hread := lowerChain_follow hplain rfl rfl
    ((Sight.follow?_frame (f := f) (g := { f with isTracked := true }) rfl rfl _ _ _).trans hopened) hchain
  change (if y.isThis then assignTo.invalid y.span else storeIdentifier y (w'.refined type))
    { f with isTracked := true } w' = .ok path x at hstore
  rw [run_ite] at hstore
  split at hstore
  · cases hstore
  · obtain ⟨r, u, z, htarget, -, -, hkept⟩ := storeIdentifier_ok hy hstore
    have hnode : x.node = w'.node := (hkept.inert rfl).2.trans (targetSymbol_node htarget)
    change x.node.dependencies = [d.path]
    rw [hnode, hread]

end Diglot.Lowering
