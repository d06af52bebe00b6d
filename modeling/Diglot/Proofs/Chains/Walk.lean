import Diglot.Proofs.Chains.Recorded

/-! # Walking along a chain

`Sight.walk` reads off a chain, without code, what the chain shows. Lowering the chain goes along with it: while the
walk goes on, lowering resolves the same segments (`Sight.step?_of_walkSegment`), unless the walk strays
(`Sight.Strays`). It does not look whether a member that is named behind a class is static, and it takes the call of
an accessor for the member even if the call has arguments.
-/

set_option autoImplicit false

namespace Diglot

/-- Subscripts change the type of an array only. -/
theorem Ty.subscripted_of_rank {t : Ty} (h : t.rank = 0) (dims : Nat) : t.subscripted dims = t := by
  obtain ⟨uid, rank⟩ := t
  obtain rfl : rank = 0 := h
  unfold Ty.subscripted
  rw [if_neg (by simp)]
  simp

namespace Lowering

namespace Sight

/-- The name of the member that a segment may read. Behind another segment that can be the call of an accessor. -/
def readName? (c : Cursor) : Node → Option String
  | .identifier ident => some ident.name
  | .call call => if 0 < c.depth then propertyName? call.name else none
  | _ => none

/-- Walking on over a segment shows what lowering it does not read: behind the name of a class a member that is
not static, or behind another segment the member of an accessor that is called with arguments. -/
inductive Strays (v : Sight) (c : Cursor) : Node → Prop where
  | throughClass {n : Node} {name : String} {r : SymbolRef} {x : Symbol} : readName? c n = some name →
      c.anchor.isSome → v.segmentTarget name c = .symbol r → v.session.symbol? r = some x →
      x.isStatic = false → v.Strays c n
  | withArguments {call : Call} : call.args ≠ [] → (accessedProperty? v { call with args := [] } c).isSome →
      v.Strays c (.call call)

/-- Walking along the segments strays at one of them. -/
def StraysIn (v : Sight) : Cursor → List Node → Prop
  | _, [] => False
  | c, n :: rest => v.Strays c n.unwrap ∨
      ∃ d, v.walkSegment c n.unwrap = .go d ∧ v.StraysIn { d with depth := d.depth + 1 } rest

end Sight

/-! ## The two cursors -/

/-- Walking came to `c` where lowering came to `e`. Subscripts of a call are not seen on the walk, so that it may
still stand before an array. -/
structure Cursor.Mirrors (c e : Cursor) : Prop where
  path : e.path.bare = c.path.bare
  anchor : e.anchor = c.anchor
  depth : e.depth = 0 ↔ c.depth = 0
  isStatic : e.IsStatic
  behind : c.anchor.isSome → c.depth ≠ 0
  type : e.type = c.type ∨ c.onArray = true ∧ c.depth ≠ 0

theorem Cursor.mirrors_start (isSingle : Bool) : (start isSingle).Mirrors (start isSingle) :=
  ⟨rfl, rfl, .rfl, isStatic_start isSingle, nofun, .inl rfl⟩

namespace Cursor.Mirrors

variable {v : Sight} {c e : Cursor}

theorem segmentTarget (h : c.Mirrors e) (name : String) :
    v.segmentTarget name e = v.segmentTarget name c ∨ v.segmentTarget name c = .arrayReceiver := by
  unfold Sight.segmentTarget
  by_cases hdepth : c.depth = 0
  · exact .inl (by rw [if_pos hdepth, if_pos (h.depth.mpr hdepth)])
  · rw [if_neg hdepth, if_neg fun hzero => hdepth (h.depth.mp hzero)]
    unfold Sight.memberTarget
    obtain htype | ⟨harray, -⟩ := h.type
    · refine .inl ?_
      unfold Cursor.onArray Cursor.receiver?
      rw [h.anchor, htype]
    · exact .inr (if_pos harray)

theorem callTarget (h : c.Mirrors e) (name : String) (arity : Nat) :
    v.callTarget name arity e = v.callTarget name arity c ∨ v.callTarget name arity c = .arrayReceiver := by
  unfold Sight.callTarget
  by_cases hdepth : c.depth = 0
  · exact .inl (by rw [if_pos hdepth, if_pos (h.depth.mpr hdepth)])
  · rw [if_neg hdepth, if_neg fun hzero => hdepth (h.depth.mp hzero)]
    unfold Sight.memberCall
    obtain htype | ⟨harray, -⟩ := h.type
    · refine .inl ?_
      unfold Cursor.onArray Cursor.receiver?
      rw [h.anchor, htype]
    · exact .inr (if_pos harray)

theorem hiddenMember? (h : c.Mirrors e) {name : String} (htarget : v.segmentTarget name c ≠ .arrayReceiver) :
    v.hiddenMember? name e = v.hiddenMember? name c := by
  unfold Sight.hiddenMember?
  by_cases hdepth : c.depth = 0
  · rw [if_pos hdepth, if_pos (h.depth.mpr hdepth)]
  · rw [if_neg hdepth, if_neg fun hzero => hdepth (h.depth.mp hzero)]
    obtain htype | ⟨harray, -⟩ := h.type
    · unfold Cursor.receiver?
      rw [h.anchor, htype]
    · refine absurd ?_ htarget
      unfold Sight.segmentTarget Sight.memberTarget
      rw [if_neg hdepth, if_pos harray]

end Cursor.Mirrors

/-! ## Where the walk goes on -/

namespace Sight

variable {v : Sight} {c d e : Cursor}

theorem bare_append (p q : Path) : (p ++ q).bare = p.bare ++ q.bare := List.map_append

theorem walkTarget_go {shown : String} {dims : Nat} {allowClass : Bool}
    (h : v.walkTarget c shown dims allowClass = .go d) :
    (∃ r x, v.segmentTarget shown c = .symbol r ∧ v.session.symbol? r = some x ∧
      d = { c with
        path := c.path ++ [.ofName shown (some r) x.classScope], type := x.type.subscripted dims, anchor := none }) ∨
    ∃ id, v.segmentTarget shown c = .cls id ∧ allowClass = true ∧
      d = { c with
        path := c.path ++ [.ofName shown none (some id)], type := .scalar id, anchor := some id } := by
  unfold walkTarget at h
  split at h
  · next r hr =>
    split at h
    · cases h
    · next x hx =>
      cases h
      exact .inl ⟨r, x, hr, hx, rfl⟩
  · next id hid =>
    split at h
    · next hallow =>
      cases h
      exact .inr ⟨id, hid, hallow, rfl⟩
    · cases h
  · split at h <;> cases h
  · cases h

/-- Behind the first segment no name stands for a class. -/
theorem segmentTarget_ne_cls {name : String} {id : Nat} (hdepth : c.depth ≠ 0) :
    v.segmentTarget name c ≠ .cls id := by
  unfold segmentTarget memberTarget
  rw [if_neg hdepth]
  split
  · rintro ⟨⟩
  · split
    · rintro ⟨⟩
    · split <;> rintro ⟨⟩

/-- A name over which the walk goes on, and does not stray, is resolved statically. -/
theorem stepName?_of_walkTarget {ident : Identifier} {allowClass : Bool} (h : c.Mirrors e)
    (hthis : (ident.isThis && c.depth == 0) = false)
    (hstatic : ∀ r x, v.segmentTarget ident.name c = .symbol r → v.session.symbol? r = some x →
      c.anchor.isSome → x.isStatic = true)
    (hwalk : v.walkTarget c ident.name ident.dims.length allowClass = .go d) :
    ∃ e', v.stepName? e ident = some e' ∧ ({ d with depth := d.depth + 1 } : Cursor).Mirrors e' := by
  have hthis' : (ident.isThis && e.depth == 0) = false := by
    rw [← hthis]
    congr 1
    simp [h.depth]
  have htarget (htarget : v.segmentTarget ident.name c ≠ .arrayReceiver) :
      v.segmentTarget ident.name e = v.segmentTarget ident.name c :=
    (h.segmentTarget ident.name).resolve_right htarget
  unfold stepName?
  rw [hthis', if_neg Bool.false_ne_true]
  obtain ⟨r, x, hr, hx, rfl⟩ | ⟨id, hid, -, rfl⟩ := walkTarget_go hwalk
  · have hallowed : (x.isStatic || e.anchor.isNone) = true := by
      rw [h.anchor]
      cases hanchor : c.anchor with
      | none => simp
      | some cls => simp [hstatic r x hr hx (by simp [hanchor])]
    rw [htarget (by simp [hr]), hr]
    dsimp only
    rw [hx]
    dsimp only
    rw [if_pos hallowed]
    refine ⟨_, rfl, ?_, rfl, by simp, ⟨?_, ?_, ?_⟩, by simp, .inl rfl⟩
    · simp [h.isStatic.isLate, bare_append, h.path]
      rfl
    · simp [h.isStatic.isLate]
    · simp [Cursor.track, h.isStatic.isLate, h.isStatic.lateEntry]
    · simp [Cursor.track, h.isStatic.isLate, h.isStatic.isStopped]
  · rw [htarget (by simp [hid]), hid]
    refine ⟨_, rfl, ?_, rfl, by simp, ⟨?_, ?_, ?_⟩, by simp, .inl rfl⟩
    · simp [h.isStatic.isLate, bare_append, h.path]
    · simp [h.isStatic.isLate]
    · simp [Cursor.track, h.isStatic.isLate, h.isStatic.lateEntry]
    · simp [Cursor.track, h.isStatic.isLate, h.isStatic.isStopped]

/-- A call over which the walk goes on is resolved statically. -/
theorem stepCall?_of_walkCall {call : Call} (h : c.Mirrors e) (hproperty : accessedProperty? v call e = none)
    (hwalk : v.walkCall c call.name call.args.length = .go d) :
    ∃ e', v.stepCall? e call = some e' ∧ ({ d with depth := d.depth + 1 } : Cursor).Mirrors e' := by
  unfold walkCall at hwalk
  split at hwalk
  case h_2 => cases hwalk
  next r hr =>
  split at hwalk
  · cases hwalk
  · next p hp =>
    cases hwalk
    have hcall : v.callTarget call.name call.args.length e = .procedure r :=
      ((h.callTarget call.name _).resolve_right (by simp [hr])).trans hr
    unfold stepCall?
    rw [hproperty]
    dsimp only
    rw [hcall]
    dsimp only
    rw [hp]
    refine ⟨_, rfl, ?_, rfl, by simp, ⟨?_, rfl, ?_⟩, by simp, ?_⟩
    · simp [h.isStatic.isLate, bare_append, h.path]
      rfl
    · simp [h.isStatic.isLate]
    · simp [Cursor.track, h.isStatic.isLate, h.isStatic.isStopped]
    · by_cases harray : (callType p).rank = 0
      · exact .inl (Ty.subscripted_of_rank harray _)
      · exact .inr ⟨by simp [Cursor.onArray, Ty.isArray, harray], by simp⟩

theorem accessedProperty?_eq {call : Call} {property : String} (hdepth : c.depth ≠ 0)
    (hname : propertyName? call.name = some property) (hargs : call.args = [])
    (htarget : (∃ r, v.segmentTarget property c = .symbol r) ∨ v.segmentTarget property c = .inaccessible) :
    accessedProperty? v call c = some property := by
  unfold accessedProperty?
  rw [hname, hargs]
  dsimp only
  rw [decide_eq_true (Nat.pos_of_ne_zero hdepth)]
  obtain ⟨r, hr⟩ | hr := htarget
  · rw [hr]
    rfl
  · rw [hr]
    rfl

theorem accessedProperty?_of_name {call : Call} (h : propertyName? call.name = none) :
    accessedProperty? v call c = none := by
  unfold accessedProperty?
  rw [h]

theorem accessedProperty?_root {call : Call} (h : c.depth = 0) : accessedProperty? v call c = none := by
  unfold accessedProperty?
  split
  · rfl
  · simp [h]

theorem accessedProperty?_of_args {call : Call} (h : call.args ≠ []) : accessedProperty? v call c = none := by
  unfold accessedProperty?
  split
  · rfl
  · simp [h]

/-- A segment over which the walk goes on, and does not stray, is resolved statically. -/
theorem step?_of_walkSegment {n : Node} (h : c.Mirrors e) (hstrays : ¬ v.Strays c n)
    (hwalk : v.walkSegment c n = .go d) :
    ∃ e', v.step? e n = some e' ∧ ({ d with depth := d.depth + 1 } : Cursor).Mirrors e' := by
  cases n with
  | identifier ident =>
    change (if ident.isThis && c.depth == 0 then _ else _) = Walk.go d at hwalk
    by_cases hthis : (ident.isThis && c.depth == 0) = true
    · rw [if_pos hthis] at hwalk
      cases hwalk
      have hthis' : (ident.isThis && e.depth == 0) = true := by
        rw [← hthis]
        congr 1
        simp [h.depth]
      change ∃ e', v.stepName? e ident = some e' ∧ _
      unfold stepName?
      rw [if_pos hthis']
      refine ⟨_, rfl, ?_, ?_, by simp [Cursor.track, h.isStatic.isLate], ⟨?_, ?_, ?_⟩, by simp, .inl ?_⟩
      · simp [h.isStatic.isLate, bare_append, h.path]
      · simp [Cursor.track, h.isStatic.isLate, h.anchor]
      · simp [h.isStatic.isLate]
      · simp [Cursor.track, h.isStatic.isLate, h.isStatic.lateEntry]
      · simp [Cursor.track, h.isStatic.isLate, h.isStatic.isStopped]
      · simp [Cursor.track, h.isStatic.isLate]
    · rw [if_neg hthis] at hwalk
      refine stepName?_of_walkTarget h (Bool.eq_false_iff.mpr hthis) (fun r x hr hx hanchor => ?_) hwalk
      by_contra hstatic
      exact hstrays (.throughClass rfl hanchor hr hx (by simpa using hstatic))
  | call call =>
    dsimp only [walkSegment] at hwalk
    change ∃ e', v.stepCall? e call = some e' ∧ _
    split at hwalk
    · next property hproperty =>
      obtain ⟨hdepth, hname⟩ : 0 < c.depth ∧ propertyName? call.name = some property := by
        split at hproperty
        · next hdepth => exact ⟨hdepth, hproperty⟩
        · cases hproperty
      have hread : readName? c (.call call) = some property := by
        change (if 0 < c.depth then propertyName? call.name else none) = some property
        exact hproperty
      obtain ⟨r, x, hr, -, -⟩ | ⟨id, -, hallow, -⟩ := walkTarget_go hwalk
      · have hargs : call.args = [] := by
          by_contra hargs
          have hname' : propertyName? ({ call with args := [] } : Call).name = some property := hname
          refine hstrays (.withArguments hargs ?_)
          rw [accessedProperty?_eq (by omega) hname' rfl (.inl ⟨r, hr⟩)]
          rfl
        have htarget : v.segmentTarget property e = .symbol r :=
          ((h.segmentTarget property).resolve_right (by simp [hr])).trans hr
        unfold stepCall?
        rw [accessedProperty?_eq (fun hzero => by have := h.depth.mp hzero; omega) hname hargs (.inl ⟨r, htarget⟩)]
        let ident : Identifier := ⟨property, call.dims, [], call.span⟩
        have hthis : (ident.isThis && c.depth == 0) = false := by
          simp
          omega
        refine stepName?_of_walkTarget h hthis (fun r x hr hx hanchor => ?_) hwalk
        by_contra hstatic
        exact hstrays (.throughClass hread hanchor hr hx (by simpa using hstatic))
      · cases hallow
    · next hproperty =>
      refine stepCall?_of_walkCall h ?_ hwalk
      split at hproperty
      · exact accessedProperty?_of_name hproperty
      · next hdepth => exact accessedProperty?_root (h.depth.mpr (by omega))
  | _ => cases hwalk

/-! ## Where the walk strays or stops -/

theorem walkSegment_name {n : Node} {name : String} (hname : readName? c n = some name) (hdepth : c.depth ≠ 0) :
    ∃ dims allowClass, v.walkSegment c n = v.walkTarget c name dims allowClass := by
  cases n with
  | identifier ident =>
    cases hname
    refine ⟨ident.dims.length, true, if_neg ?_⟩
    simp [hdepth]
  | call call =>
    refine ⟨call.dims.length, false, ?_⟩
    have hproperty : (if 0 < c.depth then propertyName? call.name else none) = some name := hname
    dsimp only [walkSegment]
    rw [hproperty]
  | _ => cases hname

theorem walkTarget_stop {shown : String} {dims : Nat} {allowClass : Bool}
    (h : v.walkTarget c shown dims allowClass = .stop d) :
    d.path = c.path ∨ ∃ x, v.segmentTarget shown c = .inaccessible ∧ v.hiddenMember? shown c = some x ∧
      d.path = c.path ++ [x] := by
  unfold walkTarget at h
  split at h
  · split at h <;> cases h
  · split at h
    · cases h
    · cases h
      exact .inl rfl
  · next htarget =>
    split at h
    · next x hx =>
      cases h
      exact .inr ⟨x, htarget, hx, rfl⟩
    · cases h
      exact .inl rfl
  · cases h
    exact .inl rfl

theorem walkCall_stop {name : String} {arity : Nat} (h : v.walkCall c name arity = .stop d) : d = c := by
  unfold walkCall at h
  split at h
  · split at h <;> cases h
  · cases h
    rfl

/-- Behind the first segment, a member that may not be used is shown all the same. -/
theorem hiddenMember?_inaccessible {name : String} (hdepth : c.depth ≠ 0)
    (h : v.segmentTarget name c = .inaccessible) :
    ∃ m : MemberRef, v.hiddenMember? name c = some (.ofName name (some ⟨.cls m.owner, m.index⟩) (some m.owner)) := by
  unfold segmentTarget memberTarget at h
  rw [if_neg hdepth] at h
  split at h
  · cases h
  · split at h
    · cases h
    · next cls hcls =>
      split at h
      · cases h
      · next m hm =>
        unfold inClass at hm
        split at hm
        · cases hm
        · next m' hm' =>
          refine ⟨m', ?_⟩
          unfold hiddenMember?
          rw [if_neg hdepth, hcls]
          dsimp only [Option.bind_some]
          rw [v.session.classes.anyMember?_of_inaccessible hm']
          rfl
        · split at hm <;> cases hm
      · cases h

theorem accessedProperty?_isSome {call : Call} (h : (accessedProperty? v call c).isSome) :
    c.depth ≠ 0 ∧ ∃ property, propertyName? call.name = some property ∧
      ((∃ r, v.segmentTarget property c = .symbol r) ∨ v.segmentTarget property c = .inaccessible) := by
  unfold accessedProperty? at h
  split at h
  · cases h
  · next property hproperty =>
    split at h
    · next hcond =>
      refine ⟨by simp at hcond; omega, property, hproperty, ?_⟩
      split at h
      · next r hr => exact .inl ⟨r, hr⟩
      · next hr => exact .inr hr
      · cases h
    · cases h

/-- Where the walk strays, it shows a member. -/
theorem Strays.walkSegment {n : Node} (h : v.Strays c n) (hbehind : c.anchor.isSome → c.depth ≠ 0) :
    v.walkSegment c n = .abandon ∨ ∃ d x, (v.walkSegment c n = .go d ∨ v.walkSegment c n = .stop d) ∧
      x.symbol.isSome ∧ d.path = c.path ++ [x] := by
  have hsymbol {name : String} {r : SymbolRef} (hdepth : c.depth ≠ 0) (hname : readName? c n = some name)
      (hr : v.segmentTarget name c = .symbol r) :
      v.walkSegment c n = .abandon ∨ ∃ d x, (v.walkSegment c n = .go d ∨ v.walkSegment c n = .stop d) ∧
        x.symbol.isSome ∧ d.path = c.path ++ [x] := by
    obtain ⟨dims, allowClass, hwalk⟩ := walkSegment_name (v := v) hname hdepth
    rw [hwalk]
    unfold walkTarget
    rw [hr]
    dsimp only
    cases v.session.symbol? r with
    | none => exact .inl rfl
    | some x => exact .inr ⟨_, .ofName name (some r) x.classScope, .inl rfl, rfl, rfl⟩
  cases h with
  | throughClass hname hanchor hr hx hstatic => exact hsymbol (hbehind hanchor) hname hr
  | @withArguments call hargs hproperty =>
    obtain ⟨hdepth, property, hname, ⟨r, hr⟩ | hr⟩ := accessedProperty?_isSome hproperty
    · exact hsymbol hdepth (by simpa [readName?, Nat.pos_of_ne_zero hdepth] using hname) hr
    · obtain ⟨m, hm⟩ := hiddenMember?_inaccessible hdepth hr
      have hread : readName? c (.call call) = some property := by
        simpa [readName?, Nat.pos_of_ne_zero hdepth] using hname
      obtain ⟨dims, allowClass, hwalk⟩ := walkSegment_name (v := v) hread hdepth
      rw [hwalk]
      unfold walkTarget
      rw [hr]
      dsimp only
      rw [hm]
      exact .inr ⟨_, _, .inr rfl, rfl, rfl⟩

/-! ## What the walk adds to -/

variable {n : Node} {segments : List Node} {w : Cursor}

/-- The walk only adds to the path. -/
theorem walkSegment_grows (h : v.walkSegment c n = .go w ∨ v.walkSegment c n = .stop w) : c.path <+: w.path := by
  have htarget {shown : String} {dims : Nat} {allowClass : Bool}
      (h : v.walkTarget c shown dims allowClass = .go w ∨ v.walkTarget c shown dims allowClass = .stop w) :
      c.path <+: w.path := by
    obtain h | h := h
    · obtain ⟨r, x, -, -, rfl⟩ | ⟨id, -, -, rfl⟩ := walkTarget_go h
      · exact List.prefix_append _ _
      · exact List.prefix_append _ _
    · obtain hpath | ⟨x, -, -, hpath⟩ := walkTarget_stop h
      · exact hpath ▸ List.prefix_refl _
      · exact hpath ▸ List.prefix_append _ _
  have hcall {name : String} {arity : Nat}
      (h : v.walkCall c name arity = .go w ∨ v.walkCall c name arity = .stop w) : c.path <+: w.path := by
    obtain h | h := h
    · unfold walkCall at h
      split at h
      · split at h
        · cases h
        · cases h
          exact List.prefix_append _ _
      · cases h
    · exact walkCall_stop h ▸ List.prefix_refl _
  unfold walkSegment at h
  split at h
  · split at h
    · obtain h | h := h
      · cases h
        exact List.prefix_append _ _
      · cases h
    · exact htarget h
  · split at h
    · exact htarget h
    · exact hcall h
  · obtain h | h := h
    · cases h
    · cases h
      exact List.prefix_refl _

theorem walk_grows (h : v.walk c segments = some w) : c.path <+: w.path := by
  induction segments generalizing c with
  | nil =>
    cases h
    exact List.prefix_refl _
  | cons n rest ih =>
    unfold walk at h
    split at h
    · next d hgo =>
      have hrest := ih h
      exact (walkSegment_grows (.inl hgo)).trans hrest
    · next d hstop =>
      cases h
      exact walkSegment_grows (.inr hstop)
    · cases h

end Sight

/-! ## A node that is a chain -/

section
variable {a b : Session} (hst : a.SameNames b) (f : Frame)
include hst

theorem Sight.walkSegment_sightFrom (c : Cursor) (n : Node) :
    (sightFrom f b).walkSegment c n = (sightFrom f a).walkSegment c n := by
  have hsymbol (r : SymbolRef) : (sightFrom f b).session.symbol? r = (sightFrom f a).session.symbol? r :=
    hst.symbol?_eq r
  have hprocedure (r : ProcRef) : (sightFrom f b).session.procedure? r = (sightFrom f a).session.procedure? r :=
    hst.procedure?_eq r
  unfold walkSegment walkTarget walkCall
  simp only [segmentTarget_sightFrom hst f, callTarget_sightFrom hst f, hiddenMember?_sightFrom hst f, hsymbol,
    hprocedure]
  rfl

theorem Sight.walk_sightFrom (c : Cursor) (segments : List Node) :
    (sightFrom f b).walk c segments = (sightFrom f a).walk c segments := by
  induction segments generalizing c with
  | nil => rfl
  | cons n rest ih =>
    unfold walk
    simp only [walkSegment_sightFrom hst f, ih]

theorem Sight.dependency?_sightFrom (node : Node) :
    (sightFrom f b).dependency? node = (sightFrom f a).dependency? node := by
  unfold dependency?
  simp only [walk_sightFrom hst f]

end

theorem Sight.dependency?_eq_some {v : Sight} {node : Node} {p : Path} (h : v.dependency? node = some p) :
    ∃ segments w, node.segments = .ok segments ∧ segments ≠ [] ∧
      v.walk (.start (segments.length == 1)) segments = some w ∧ p = w.path := by
  unfold dependency? at h
  dsimp only at h
  split at h
  · next w hwalked =>
    split at h
    · cases h
    next hpath =>
    cases h
    obtain ⟨segments, hsegments, hw⟩ := Option.bind_eq_some_iff.mp hwalked
    refine ⟨segments, w, ?_, ?_, hw, rfl⟩
    · cases node with
      | identifier ident =>
        cases hsegments
        rfl
      | call call =>
        cases hsegments
        rfl
      | member left right op lastFactor span =>
        cases hchain : (Node.member left right op lastFactor span).segments <;> rw [hchain] at hsegments <;> cases hsegments
        rfl
      | _ => cases hsegments
    · rintro rfl
      cases hw
      exact hpath rfl
  · cases h

/-- An expression that is a chain is lowered as one. -/
theorem expression_segments {node : Node} {segments : List Node} {v : Sight} {p : Path}
    (hp : v.dependency? node = some p) (hsegments : node.segments = .ok segments) :
    expression node = lowerChain expression segments node.span := by
  rw [expression_eq]
  cases node with
  | identifier ident =>
    cases hsegments
    rfl
  | call call =>
    cases hsegments
    rfl
  | member left right op lastFactor span =>
    change (do lowerChain expression (← chainSegments (.member left right op lastFactor span)) span) = _
    unfold chainSegments
    rw [hsegments]
    rfl
  | _ => cases hp

end Lowering

end Diglot
