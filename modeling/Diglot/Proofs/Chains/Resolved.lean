import Diglot.Proofs.Chains.InStep
import Diglot.Proofs.Spare.Expression

/-! # Chains that are resolved statically

A segment is resolved statically if it is a name that stands for the current object, for a symbol or for a
class, or a call of a procedure that was found. `Sight.step?` moves a cursor over such a segment, and
`Sight.trace?` over a chain of them. Lowering a segment moves its cursor in the same way
(`lowerSegment_step`).
-/

set_option autoImplicit false

namespace Diglot

theorem Session.SameNames.procedure?_eq {s t : Session} (h : s.SameNames t) (r : ProcRef) :
    t.procedure? r = s.procedure? r := by
  unfold Session.procedure?
  rw [h.classes, h.procedures]

namespace Lowering

namespace Sight

/-- Moves over a call of a procedure, or over the member that the call of an accessor reads. -/
def stepCall? (v : Sight) (c : Cursor) (call : Call) : Option Cursor :=
  match accessedProperty? v call c with
  | some property => v.stepName? c ⟨property, call.dims, [], call.span⟩
  | none =>
    match v.callTarget call.name call.args.length c with
    | .procedure r =>
      (v.session.procedure? r).map fun p =>
        let c := c.track { callSegment p call.name with dims := literalDims v.frame.dialect call.dims }
        { c with
          type := (callType p).subscripted call.dims.length
          depth := 1
          afterCall := true
          anchor := none
          lateEntry := none
          hasCall := c.hasCall || true }
    | _ => none

/-- Moves over a segment that is resolved statically. -/
def step? (v : Sight) (c : Cursor) : Node → Option Cursor
  | .identifier ident => v.stepName? c ident
  | .call call => v.stepCall? c call
  | _ => none

/-- Moves over segments that are all resolved statically. -/
def trace? (v : Sight) (c : Cursor) (segments : List Node) : Option Cursor := segments.foldlM v.step? c

end Sight

/-- Nothing so far is looked up at run time, and the chain goes on. -/
structure Cursor.IsStatic (c : Cursor) : Prop where
  isLate : c.isLate = false
  lateEntry : c.lateEntry = none
  isStopped : c.isStopped = false

theorem Cursor.isStatic_start (isSingle : Bool) : (start isSingle).IsStatic := ⟨rfl, rfl, rfl⟩

namespace Sight

variable {v : Sight} {c d : Cursor} {n : Node}

theorem trace?_cons (n : Node) (rest : List Node) :
    v.trace? c (n :: rest) = (v.step? c n).bind fun d => v.trace? d rest := rfl

/-! ## What the cursor shows -/

/-- A cursor that was moved over a segment. -/
structure Moved (c d : Cursor) : Prop where
  isStatic : d.IsStatic
  behind : d.depth ≠ 0
  path : ∃ x, d.path = c.path ++ [x]

theorem stepName?_moved {ident : Identifier} (hc : c.IsStatic) (h : v.stepName? c ident = some d) : Moved c d := by
  obtain ⟨hlate, hstopped, -, hdepth, x, hpath, -⟩ := stepName?_cursor h hc.isLate
  have hentry : d.lateEntry = c.lateEntry := by
    unfold stepName? at h
    split at h
    · cases h
      simp [Cursor.track, hc.isLate]
    · split at h
      · split at h
        · cases h
        · split at h
          · cases h
            simp [Cursor.track, hc.isLate]
          · cases h
      · cases h
        simp [Cursor.track, hc.isLate]
      · cases h
  exact ⟨⟨hlate, hentry.trans hc.lateEntry, hstopped.trans hc.isStopped⟩, by omega, x, hpath⟩

theorem stepCall?_moved {call : Call} (hc : c.IsStatic) (h : v.stepCall? c call = some d) : Moved c d := by
  unfold stepCall? at h
  split at h
  · exact stepName?_moved hc h
  · split at h
    · obtain ⟨p, -, rfl⟩ := Option.map_eq_some_iff.mp h
      refine ⟨⟨?_, rfl, ?_⟩, Nat.one_ne_zero, { callSegment p call.name with
        dims := literalDims v.frame.dialect call.dims }, ?_⟩ <;> simp [Cursor.track, hc.isLate, hc.isStopped]
    · cases h

theorem step?_moved (hc : c.IsStatic) (h : v.step? c n = some d) : Moved c d := by
  unfold step? at h
  split at h
  · exact stepName?_moved hc h
  · exact stepCall?_moved hc h
  · cases h

/-! ## What can be behind a dot -/

theorem stepName?_behind {ident : Identifier} (hdepth : c.depth ≠ 0) (h : v.stepName? c ident = some d) :
    c.receiver?.isSome ∧ d.anchor = none := by
  have hroot : (ident.isThis && c.depth == 0) = false := by simp [hdepth]
  unfold stepName? at h
  rw [hroot, if_neg Bool.false_ne_true, segmentTarget, if_neg hdepth, memberTarget] at h
  split at h
  · next r hr =>
    split at hr
    · cases hr
    · split at hr
      · cases hr
      · next cls hcls =>
        split at h
        · cases h
        · split at h
          · cases h
            exact ⟨by simp [hcls], rfl⟩
          · cases h
  · next id hid =>
    split at hid
    · cases hid
    · split at hid
      · cases hid
      · split at hid <;> cases hid
  · cases h

theorem stepCall?_behind {call : Call} (hdepth : c.depth ≠ 0) (h : v.stepCall? c call = some d) :
    c.receiver?.isSome ∧ d.anchor = none := by
  unfold stepCall? at h
  split at h
  · exact stepName?_behind hdepth h
  · split at h
    · next r hr =>
      obtain ⟨p, -, rfl⟩ := Option.map_eq_some_iff.mp h
      refine ⟨?_, rfl⟩
      rw [callTarget, if_neg hdepth, memberCall] at hr
      split at hr
      · cases hr
      · split at hr
        · cases hr
        · next cls hcls => simp [hcls]
    · cases h

/-- A segment behind a dot is looked up in a class, and names none. -/
theorem step?_behind (hdepth : c.depth ≠ 0) (h : v.step? c n = some d) :
    c.receiver?.isSome ∧ d.anchor = none := by
  unfold step? at h
  split at h
  · exact stepName?_behind hdepth h
  · exact stepCall?_behind hdepth h
  · cases h

/-- The first segment of a chain names a class only if that anchors the chain when it is split. -/
theorem step?_root (hnone : v.frame.anchor = none) (hdepth : c.depth = 0) (hanchor : c.anchor = none)
    (h : v.step? c n = some d) {m : Node} {rest : List Node}
    (hsplit : splitAnchor? v (n :: m :: rest) = none) : d.anchor = none := by
  have hname {ident : Identifier} (hsplit : splitAnchor? v (.identifier ident :: m :: rest) = none)
      (h : v.stepName? c ident = some d) : d.anchor = none := by
    unfold stepName? at h
    split at h
    · cases h
      unfold Cursor.track
      split <;> exact hanchor
    · split at h
      · split at h
        · cases h
        · split at h
          · cases h
            rfl
          · cases h
      · next id hid =>
        exfalso
        rw [segmentTarget, if_pos hdepth, rootTarget, hnone] at hid
        unfold splitAnchor? at hsplit
        dsimp only at hsplit
        cases hr : v.resolve ident.name with
        | unbound =>
          rw [hr] at hsplit hid
          dsimp only at hsplit
          rw [hsplit] at hid
          cases hid
        | found r =>
          rw [hr] at hid
          cases hid
        | inaccessible r =>
          rw [hr] at hid
          cases hid
      · cases h
  cases n with
  | identifier ident => exact hname hsplit h
  | call call =>
    change v.stepCall? c call = some d at h
    unfold stepCall? at h
    split at h
    · next property hproperty =>
      unfold accessedProperty? at hproperty
      split at hproperty
      · cases hproperty
      · simp [hdepth] at hproperty
    · split at h
      · obtain ⟨p, -, rfl⟩ := Option.map_eq_some_iff.mp h
        rfl
      · cases h
  | _ => cases h

/-! ## Where names are looked up alike -/

section
variable {s t : Session} (hst : s.SameNames t) (f : Frame)
include hst

theorem segmentTarget_sightFrom (name : String) (c : Cursor) :
    (sightFrom f t).segmentTarget name c = (sightFrom f s).segmentTarget name c := by
  have htarget := segmentTarget_congr (v := sightFrom f s) hst f.isGuided name c
  rwa [show (⟨t, { (sightFrom f s).frame with isGuided := f.isGuided }, (sightFrom f s).blocks⟩ : Sight) =
    sightFrom f t by rw [← sightFrom_blocks hst f]; rfl] at htarget

theorem callTarget_sightFrom (name : String) (arity : Nat) (c : Cursor) :
    (sightFrom f t).callTarget name arity c = (sightFrom f s).callTarget name arity c := by
  have hclasses : (sightFrom f t).session.classes = (sightFrom f s).session.classes := hst.classes
  have hprocedures : (sightFrom f t).session.procedures = (sightFrom f s).session.procedures := hst.procedures
  unfold callTarget rootCall memberCall
  rw [hclasses, hprocedures]
  rfl

theorem accessedProperty?_sightFrom (call : Call) (c : Cursor) :
    accessedProperty? (sightFrom f t) call c = accessedProperty? (sightFrom f s) call c := by
  unfold accessedProperty?
  simp only [segmentTarget_sightFrom hst f]

theorem hiddenMember?_sightFrom (name : String) (c : Cursor) :
    (sightFrom f t).hiddenMember? name c = (sightFrom f s).hiddenMember? name c := by
  have hclasses : (sightFrom f t).session.classes = (sightFrom f s).session.classes := hst.classes
  unfold hiddenMember?
  rw [hclasses]
  rfl

theorem step?_congr (c : Cursor) (n : Node) : (sightFrom f t).step? c n = (sightFrom f s).step? c n := by
  have hname (ident : Identifier) : (sightFrom f t).stepName? c ident = (sightFrom f s).stepName? c ident :=
    stepName?_congr hst f c ident
  have hprocedure (r : ProcRef) : (sightFrom f t).session.procedure? r = (sightFrom f s).session.procedure? r :=
    hst.procedure?_eq r
  unfold step? stepCall?
  simp only [hname, callTarget_sightFrom hst f, accessedProperty?_sightFrom hst f, hprocedure]
  rfl

end

end Sight

/-! ## Lowering a segment -/

variable {f : Frame} {s t : State} {c d e : Cursor}

/-- What only depends on the meaning of names survives the code of expressions. -/
theorem endures_of_sameNames {I : Session → Prop} (hI : ∀ {s t : Session}, s.SameNames t → I s → I t) (block : Nat) :
    Endures I 0 block where
  log _ _ := hI ⟨rfl, rfl, rfl, rfl, rfl, rfl⟩
  diagnostics _ _ := hI ⟨rfl, rfl, rfl, rfl, rfl, rfl⟩
  emit s i span _ := hI (s.sameNames_emit block i span)
  lateVariable _ _ := hI ⟨rfl, rfl, rfl, rfl, rfl, rfl⟩
  lateMember _ _ _ _ := hI ⟨rfl, rfl, rfl, rfl, rfl, rfl⟩
  lateFunction _ _ := hI ⟨rfl, rfl, rfl, rfl, rfl, rfl⟩
  known _ _ := Nat.zero_le _

/-- The code of expressions declares nothing. -/
theorem endures_sameNames (s : Session) (block : Nat) : Endures (fun t => s.SameNames t) 0 block :=
  endures_of_sameNames (fun hnames h => h.trans hnames) block

theorem lowerKnownCall_ok {call : Call} {r : ProcRef} {p : Ty × Segment}
    (hrun : lowerKnownCall call c r f s = .ok p t) :
    ∃ q, s.session.procedure? r = some q ∧ p = (callType q, callSegment q call.name) := by
  obtain ⟨_, u, hemit, hrun⟩ := bind_eq_ok.mp hrun
  have hemits : Tame true false (emitCallTo .callr r c.depth call.span) := .emitCallTo _ _ _ _
  have hnames := ((hemits.keeps_ok hemit).inert rfl).1
  rw [run_bind, run_getSession] at hrun
  dsimp only at hrun
  rw [hnames.procedure?_eq] at hrun
  cases hq : s.session.procedure? r with
  | none =>
    rw [hq] at hrun
    cases hrun
  | some q =>
    rw [hq] at hrun
    refine ⟨q, rfl, ?_⟩
    dsimp only at hrun
    rw [run_ite] at hrun
    split at hrun
    · cases hrun
      rfl
    · cases hrun
      rfl

theorem lowerInvocation_ok {call : Call} {r : ProcRef}
    (hrun : lowerInvocation expression call c (some r) f s = .ok e t) :
    ∃ q, s.session.procedure? r = some q ∧
      e = { c.track { callSegment q call.name with dims := literalDims f.dialect call.dims } with
        type := (callType q).subscripted call.dims.length
        depth := 1
        afterCall := true
        anchor := none
        lateEntry := none
        hasCall :=
          (c.track { callSegment q call.name with dims := literalDims f.dialect call.dims }).hasCall || true } := by
  obtain ⟨⟨⟩, u, hargs, hrun⟩ := bind_eq_ok.mp hrun
  have hspared : Spares (fun t => s.session.SameNames t) f
      (call.args.forM fun a => do let _ ← expression a) :=
    Sparing.forM fun a _ => .andThen (.expression a (endures_sameNames _ _)) fun _ => .pure trivial
  have hnames : s.session.SameNames u.session := by
    have hends := (hspared s (.refl _)).1
    rw [hargs] at hends
    exact hends
  obtain ⟨p, u', hcall, hrun⟩ := bind_eq_ok.mp hrun
  obtain ⟨q, hq, rfl⟩ := lowerKnownCall_ok hcall
  refine ⟨q, (hnames.procedure?_eq r).symm.trans hq, ?_⟩
  obtain ⟨⟨⟩, w, -, hrun⟩ := bind_eq_ok.mp hrun
  dsimp only at hrun
  rw [run_ite] at hrun
  split at hrun
  · obtain ⟨_, x, -, hrun⟩ := bind_eq_ok.mp hrun
    obtain ⟨_, x', hread, hrun⟩ := bind_eq_ok.mp hrun
    cases hread
    cases hrun
    rfl
  · obtain ⟨_, x', hread, hrun⟩ := bind_eq_ok.mp hrun
    cases hread
    cases hrun
    rfl

/-- A call is lowered as a read of the member, or as a call. -/
theorem lowerCall_ok {part : LowerPart} {call : Call} (hrun : lowerCall part call c f s = .ok d t) :
    ∃ on, match accessedProperty? (sightFrom f s.session) call c with
      | some property =>
        lowerIdentifier part ⟨property, call.dims, [], call.span⟩ c { f with isGuided := on } s = .ok d t
      | none => lowerResolvedCall part call c { f with isGuided := on } s = .ok d t := by
  obtain ⟨on, hrun⟩ : ∃ on, (do
      match accessedProperty? (← sight) call c with
      | some property => lowerIdentifier part ⟨property, call.dims, [], call.span⟩ c
      | none => lowerResolvedCall part call c : Lower Cursor) { f with isGuided := on } s = .ok d t := ⟨_, hrun⟩
  refine ⟨on, ?_⟩
  replace hrun := sight_bind_ok hrun
  have hsame : accessedProperty? (sightFrom { f with isGuided := on } s.session) call c =
      accessedProperty? (sightFrom f s.session) call c := rfl
  rw [hsame] at hrun
  split <;> next h => rw [h] at hrun; exact hrun

/-- Lowering a call moves the cursor as resolving it statically does. -/
theorem lowerCall_step {call : Call} (hstep : (sightFrom f s.session).stepCall? c call = some d)
    (hrun : lowerCall expression call c f s = .ok e t) : e = d := by
  obtain ⟨isGuided, hrun⟩ := lowerCall_ok hrun
  unfold Sight.stepCall? at hstep
  split at hstep
  · next property hproperty =>
    rw [hproperty] at hrun
    exact lowerIdentifier_step (f := { f with isGuided }) hstep hrun
  · next hproperty =>
    rw [hproperty] at hrun
    replace hrun := sight_bind_ok hrun
    split at hstep
    · next r hr =>
      have hr' : (sightFrom { f with isGuided } s.session).callTarget call.name call.args.length c = .procedure r := hr
      rw [hr'] at hrun
      obtain ⟨q, hq, rfl⟩ := Option.map_eq_some_iff.mp hstep
      obtain ⟨q', hq', rfl⟩ := lowerInvocation_ok hrun
      cases hq.symm.trans hq'
      rfl
    · cases hstep

/-- Lowering a segment moves the cursor as resolving it statically does. -/
theorem lowerSegment_step {isRoot : Bool} {n : Node} (hstep : (sightFrom f s.session).step? c n = some d)
    (hrun : lowerSegment expression isRoot n c f s = .ok e t) : e = d := by
  cases n with
  | identifier ident => exact lowerIdentifier_step hstep hrun
  | call call => exact lowerCall_step hstep hrun
  | _ => cases hstep

end Lowering

end Diglot
