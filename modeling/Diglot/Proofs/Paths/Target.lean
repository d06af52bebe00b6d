import Diglot.Proofs.Chains.Recorded

/-! # The path of an assigned chain

A store into a chain tells the path that it writes. `Sight.targetPath` reads that path off the chain.

- Names that are resolved and calls are shown, up to the first name that is looked up at run time or the first
  segment that null takes the place of. A member that may not be used ends the path too, but is shown.
- The last name is shown as it is stored: through a setter, as a member, or as one looked up at run time.

Storing into a chain tells this path (`storeMember_path`).
-/

set_option autoImplicit false

namespace Diglot.Lowering

namespace Sight

/-- Moves over a call that is looked up at run time. -/
def passLate (v : Sight) (c : Cursor) (call : Call) : Cursor :=
  let c := c.track { Segment.ofMethod call.name with dims := literalDims v.frame.dialect call.dims }
  { c with
    type := Ty.subscripted .var call.dims.length
    depth := 1
    afterCall := true
    anchor := none
    lateEntry := none
    hasCall := c.hasCall || false }

/-- Moves over a segment if it is a call that is looked up at run time. -/
def passLate? (v : Sight) (c : Cursor) : Node → Option Cursor
  | .call call =>
    match accessedProperty? v call c, v.callTarget call.name call.args.length c with
    | none, .unresolved => some (v.passLate c call)
    | _, _ => none
  | _ => none

/-- Moves over a segment that is resolved statically, or is a call that is looked up at run time. -/
def pass? (v : Sight) (c : Cursor) (n : Node) : Option Cursor := (v.step? c n).or (v.passLate? c n)

/-- The member of the name, if it may not be used. -/
def hiddenName (v : Sight) (c : Cursor) (name : String) : Path :=
  match v.segmentTarget name c with
  | .inaccessible => (v.hiddenMember? name c).toList
  | _ => []

/-- The member that a segment names, if it may not be used. -/
def hidden (v : Sight) (c : Cursor) : Node → Path
  | .identifier ident => v.hiddenName c ident.name
  | .call call => ((accessedProperty? v call c).map (v.hiddenName c)).getD []
  | _ => []

/-- Moves over segments, unless one of them ends the path. -/
def passAll (v : Sight) : Cursor → List Node → Except Path Cursor
  | c, [] => .ok c
  | c, n :: rest =>
    match v.pass? c n with
    | some d => v.passAll d rest
    | none => .error (c.path ++ v.hidden c n)

/-- The last name of an assigned chain, as it is stored without a setter. -/
def storedProperty (v : Sight) (property : Identifier) : Resolution → Path
  | .found r => [.ofName property.name (some r) ((v.session.symbol? r).bind Symbol.classScope)]
  | .inaccessible _ => []
  | .unbound => [.ofName property.name none none]

/-- The last name of an assigned chain, as it is stored. -/
def storedName (v : Sight) (c : Cursor) (property : Identifier) : Path :=
  match setter? v c.receiver? property with
  | some r => [.ofName property.name none r.classScope]
  | none => v.storedProperty property (v.propertyTarget c property)

/-- The path of an assigned chain with the given segments before its last name. -/
def targetPath (v : Sight) (segments : List Node) (property : Identifier) : Path :=
  match v.passAll (.start false) (segments.map Node.unwrap) with
  | .ok c => c.path ++ v.storedName c property
  | .error path => path

variable {v w : Sight} {c d : Cursor} {n : Node}

theorem passLate?_eq_some (h : v.passLate? c n = some d) :
    ∃ call, n = .call call ∧ accessedProperty? v call c = none ∧
      v.callTarget call.name call.args.length c = .unresolved ∧ d = v.passLate c call := by
  unfold passLate? at h
  split at h
  · next call =>
    split at h
    · next hproperty htarget => exact ⟨call, rfl, hproperty, htarget, (Option.some.inj h).symm⟩
    · cases h
  · cases h

theorem pass?_isStatic (hc : c.IsStatic) (h : v.pass? c n = some d) : d.IsStatic := by
  obtain hstep | ⟨-, hlate⟩ := Option.or_eq_some_iff.mp h
  · exact (step?_moved hc hstep).isStatic
  · obtain ⟨call, -, -, -, rfl⟩ := passLate?_eq_some hlate
    refine ⟨?_, rfl, ?_⟩ <;> simp [passLate, Cursor.track, hc.isLate, hc.isStopped]

theorem passAll_congr (hpass : ∀ c n, v.pass? c n = w.pass? c n) (hhidden : ∀ c n, v.hidden c n = w.hidden c n)
    (c : Cursor) (segments : List Node) : v.passAll c segments = w.passAll c segments := by
  induction segments generalizing c with
  | nil => rfl
  | cons n rest ih =>
    unfold passAll
    rw [hpass, hhidden]
    simp only [ih]

section
variable {s t : Session} (hst : s.SameNames t) (f : Frame)
include hst

theorem pass?_sightFrom (c : Cursor) (n : Node) : (sightFrom f t).pass? c n = (sightFrom f s).pass? c n := by
  unfold pass? passLate?
  simp only [step?_congr hst f, accessedProperty?_sightFrom hst f, callTarget_sightFrom hst f]
  rfl

theorem hidden_sightFrom (c : Cursor) (n : Node) : (sightFrom f t).hidden c n = (sightFrom f s).hidden c n := by
  unfold hidden hiddenName
  simp only [segmentTarget_sightFrom hst f, hiddenMember?_sightFrom hst f, accessedProperty?_sightFrom hst f]

theorem storedName_sightFrom (c : Cursor) (property : Identifier) :
    (sightFrom f t).storedName c property = (sightFrom f s).storedName c property := by
  have hsymbol : (sightFrom f t).session.symbol? = (sightFrom f s).session.symbol? := funext hst.symbol?_eq
  unfold storedName storedProperty
  rw [setter?_congr hst f, propertyTarget_congr hst f, hsymbol]

theorem targetPath_sightFrom (segments : List Node) (property : Identifier) :
    (sightFrom f t).targetPath segments property = (sightFrom f s).targetPath segments property := by
  unfold targetPath
  simp only [passAll_congr (pass?_sightFrom hst f) (hidden_sightFrom hst f), storedName_sightFrom hst f]

end

/-- Whether reads are recorded makes no difference to what is written. -/
theorem passAll_tracked (f : Frame) (s : Session) (on : Bool) (c : Cursor) (segments : List Node) :
    (sightFrom { f with isTracked := on } s).passAll c segments = (sightFrom f s).passAll c segments :=
  passAll_congr (v := sightFrom { f with isTracked := on } s) (w := sightFrom f s) (fun _ _ => rfl) (fun _ _ => rfl) c
    segments

end Sight

/-! ## Segments before the last one -/

variable {f : Frame} {s t : State} {c d e : Cursor} {n : Node} {ident : Identifier} {property : Identifier}
  {segments : List Node} {span : Span} {path : Path}

theorem stopChain_ok (hrun : stopChain c span f s = .ok e t) : e.path = c.path ∧ e.isStopped = true := by
  obtain ⟨_, _, -, hrun⟩ := bind_eq_ok.mp hrun
  cases hrun
  exact ⟨rfl, rfl⟩

theorem lowerInaccessible_ok (hlate : c.isLate = false) (hrun : lowerInaccessible ident c f s = .ok e t) :
    e.path = c.path ++ ((sightFrom f s.session).hiddenMember? ident.name c).toList ∧ e.isStopped = true := by
  obtain ⟨⟨⟩, u, hreport, hrun⟩ := bind_eq_ok.mp hrun
  have hnames : s.session.SameNames u.session := by
    cases hreport
    exact ⟨rfl, rfl, rfl, rfl, rfl, rfl⟩
  replace hrun := sight_bind_ok hrun
  rw [Sight.hiddenMember?_sightFrom hnames] at hrun
  cases hhidden : (sightFrom f s.session).hiddenMember? ident.name c with
  | none =>
    rw [hhidden] at hrun
    simpa using stopChain_ok hrun
  | some x =>
    rw [hhidden] at hrun
    obtain ⟨hpath, hstopped⟩ := stopChain_ok hrun
    exact ⟨hpath.trans (by simp [Cursor.track, hlate]), hstopped⟩

/-- A name that is not resolved ends the path. -/
theorem lowerIdentifier_ends (hlate : c.isLate = false)
    (hnone : (sightFrom f s.session).stepName? c ident = none)
    (hrun : lowerIdentifier expression ident c f s = .ok e t) :
    e.path = c.path ++ (sightFrom f s.session).hiddenName c ident.name ∧
      (e.isStopped = true ∨ e.isLate = true) := by
  unfold Sight.stepName? at hnone
  unfold lowerIdentifier at hrun
  split at hnone
  · cases hnone
  next hthis =>
  rw [if_neg hthis] at hrun
  replace hrun := sight_bind_ok hrun
  have hstopped {span : Span} {w : State} (hrun : stopChain c span f w = .ok e t) :
      e.path = c.path ++ [] ∧ (e.isStopped = true ∨ e.isLate = true) := by
    obtain ⟨hpath, hstopped⟩ := stopChain_ok hrun
    exact ⟨hpath.trans (List.append_nil _).symm, .inl hstopped⟩
  unfold Sight.hiddenName
  cases htarget : (sightFrom f s.session).segmentTarget ident.name c with
  | symbol r =>
    rw [htarget] at hrun hnone
    obtain ⟨x, w, hx, hrun⟩ := bind_eq_ok.mp hrun
    rw [run_getSymbol] at hx
    have hx' : (sightFrom f s.session).session.symbol? r = s.session.symbol? r := rfl
    dsimp only at hnone
    rw [hx'] at hnone
    cases hsymbol : s.session.symbol? r with
    | none =>
      rw [hsymbol] at hx
      cases hx
    | some y =>
      rw [hsymbol] at hx hnone
      cases hx
      dsimp only at hnone
      split at hnone
      · cases hnone
      next hinstance =>
      rw [Bool.or_eq_true, not_or] at hinstance
      obtain ⟨cls, hcls⟩ : ∃ cls, c.anchor = some cls := by
        cases hanchor : c.anchor with
        | none => exact absurd (by rw [hanchor]; rfl) hinstance.2
        | some cls => exact ⟨cls, rfl⟩
      have hanchor : (if x.isStatic = true then none else c.anchor) = some cls := by rw [if_neg hinstance.1, hcls]
      dsimp only at hrun
      rw [hanchor] at hrun
      replace hrun := sight_bind_ok hrun
      obtain ⟨⟨⟩, w'', -, hrun⟩ := bind_eq_ok.mp hrun
      exact hstopped hrun
  | cls id =>
    rw [htarget] at hnone
    cases hnone
  | inaccessible =>
    rw [htarget] at hrun
    exact (lowerInaccessible_ok hlate hrun).imp_right .inl
  | arrayReceiver =>
    rw [htarget] at hrun
    exact hstopped hrun
  | unbound =>
    rw [htarget] at hrun
    dsimp only at hrun
    rw [run_ite] at hrun
    split at hrun
    · obtain ⟨⟨⟩, w, -, hrun⟩ := bind_eq_ok.mp hrun
      exact hstopped hrun
    · obtain ⟨hpath, hlate⟩ := (Returns.lowerLate ident).ok hrun
      exact ⟨hpath.trans (List.append_nil _).symm, .inr hlate⟩

/-- A call that is looked up at run time moves the cursor. -/
theorem lowerLateInvocation_ok {call : Call} (hrun : lowerInvocation expression call c none f s = .ok e t) :
    e = (sightFrom f s.session).passLate c call := by
  obtain ⟨⟨⟩, u, -, hrun⟩ := bind_eq_ok.mp hrun
  obtain ⟨p, u', hcall, hrun⟩ := bind_eq_ok.mp hrun
  obtain rfl : p = (.var, .ofMethod call.name) := by
    have hlate : Returns f (lowerLateCall call c) fun p => p = (.var, .ofMethod call.name) :=
      .ite (Returns.after fun _ => Returns.after fun _ => Returns.after fun _ => .pure rfl)
        (Returns.after fun _ => Returns.after fun _ => .pure rfl)
    exact Returns.ok (Q := fun p => p = (.var, .ofMethod call.name)) hlate hcall
  obtain ⟨⟨⟩, w, -, hrun⟩ := bind_eq_ok.mp hrun
  dsimp only at hrun
  rw [run_ite] at hrun
  split at hrun
  · obtain ⟨_, x, -, hrun⟩ := bind_eq_ok.mp hrun
    cases hrun
    rfl
  · cases hrun
    rfl

/-- A call that cannot be passed ends the path. -/
theorem lowerCall_ends {call : Call} (hlate : c.isLate = false)
    (hnone : (sightFrom f s.session).pass? c (.call call) = none)
    (hrun : lowerCall expression call c f s = .ok e t) :
    e.path = c.path ++ (sightFrom f s.session).hidden c (.call call) ∧ (e.isStopped = true ∨ e.isLate = true) := by
  obtain ⟨isGuided, hrun⟩ := lowerCall_ok hrun
  obtain ⟨hstep, hnone⟩ := Option.or_eq_none_iff.mp hnone
  unfold Sight.step? Sight.stepCall? at hstep
  unfold Sight.passLate? at hnone
  unfold Sight.hidden
  dsimp only at hstep hnone ⊢
  cases hproperty : accessedProperty? (sightFrom f s.session) call c with
  | some property =>
    rw [hproperty] at hstep hrun
    have hname : (sightFrom { f with isGuided } s.session).stepName? c ⟨property, call.dims, [], call.span⟩ = none :=
      hstep
    obtain ⟨hpath, hends⟩ := lowerIdentifier_ends hlate hname hrun
    exact ⟨hpath, hends⟩
  | none =>
    rw [hproperty] at hstep hnone hrun
    have hstopped {span : Span} {w : State} {g : Frame} (hrun : stopChain c span g w = .ok e t) :
        e.path = c.path ++ [] ∧ (e.isStopped = true ∨ e.isLate = true) := by
      obtain ⟨hpath, hstopped⟩ := stopChain_ok hrun
      exact ⟨hpath.trans (List.append_nil _).symm, .inl hstopped⟩
    replace hrun := sight_bind_ok hrun
    have hsame : (sightFrom { f with isGuided } s.session).callTarget call.name call.args.length c =
        (sightFrom f s.session).callTarget call.name call.args.length c := rfl
    rw [hsame] at hrun
    cases htarget : (sightFrom f s.session).callTarget call.name call.args.length c with
    | procedure r =>
      rw [htarget] at hrun hstep
      obtain ⟨q, hq, -⟩ := lowerInvocation_ok hrun
      have hfound : (sightFrom f s.session).session.procedure? r = some q := hq
      dsimp only at hstep
      rw [hfound] at hstep
      cases hstep
    | unresolved =>
      rw [htarget] at hnone
      cases hnone
    | nonStatic =>
      rw [htarget] at hrun
      obtain ⟨⟨⟩, w, -, hrun⟩ := bind_eq_ok.mp hrun
      exact hstopped hrun
    | inaccessible =>
      rw [htarget] at hrun
      obtain ⟨⟨⟩, w, -, hrun⟩ := bind_eq_ok.mp hrun
      exact hstopped hrun
    | arrayReceiver =>
      rw [htarget] at hrun
      exact hstopped hrun

/-- Lowering a segment that can be passed moves the cursor as passing it does. -/
theorem lowerSegment_passes {isRoot : Bool} (hpass : (sightFrom f s.session).pass? c n = some d)
    (hrun : lowerSegment expression isRoot n c f s = .ok e t) : e = d := by
  obtain hstep | ⟨-, hlate⟩ := Option.or_eq_some_iff.mp hpass
  · exact lowerSegment_step hstep hrun
  · obtain ⟨call, rfl, hproperty, htarget, rfl⟩ := Sight.passLate?_eq_some hlate
    obtain ⟨isGuided, hrun⟩ := lowerCall_ok hrun
    rw [hproperty] at hrun
    replace hrun := sight_bind_ok hrun
    have hcalled : (sightFrom { f with isGuided } s.session).callTarget call.name call.args.length c = .unresolved :=
      htarget
    rw [hcalled] at hrun
    exact lowerLateInvocation_ok (f := { f with isGuided }) hrun

/-- Any other segment ends the path. -/
theorem lowerSegment_ends (hlate : c.isLate = false) (hnone : (sightFrom f s.session).pass? c n = none)
    (hrun : lowerSegment expression false n c f s = .ok e t) :
    e.path = c.path ++ (sightFrom f s.session).hidden c n ∧ (e.isStopped = true ∨ e.isLate = true) := by
  cases n with
  | identifier ident =>
    exact lowerIdentifier_ends hlate (Option.or_eq_none_iff.mp hnone).1 hrun
  | call call => exact lowerCall_ends hlate hnone hrun
  | _ => cases hrun

/-- Lowering a segment leaves all names as they are. -/
theorem sameNames_of_lowerSegment {isRoot : Bool} (hentry : c.lateEntry = none)
    (hrun : lowerSegment expression isRoot n c f s = .ok e t) : s.session.SameNames t.session := by
  have hfresh : c.IsFresh 0 := fun i hi => absurd hi (by simp [hentry])
  have hspared := Sparing.lowerSegment (f := f) (endures_sameNames s.session f.block)
    (fun g n hg => .expression n (hg ▸ endures_sameNames s.session f.block)) isRoot n hfresh
  exact hspared.spares.ok (.refl _) hrun

/-- Lowering segments tells the path that they show. -/
theorem lowerSegments_passAll (hc : c.IsStatic) (hrun : lowerSegments expression false segments c f s = .ok e t) :
    match (sightFrom f s.session).passAll c segments with
    | .ok d => e = d ∧ d.IsStatic
    | .error path => e.path = path ∧ (e.isStopped = true ∨ e.isLate = true) := by
  induction segments generalizing c s with
  | nil =>
    cases hrun
    exact ⟨rfl, hc⟩
  | cons n rest ih =>
    rw [lowerSegments, hc.isStopped, if_neg Bool.false_ne_true] at hrun
    obtain ⟨d, u, hfirst, hrest⟩ := bind_eq_ok.mp hrun
    unfold Sight.passAll
    cases hpass : (sightFrom f s.session).pass? c n with
    | some d' =>
      obtain rfl := lowerSegment_passes hpass hfirst
      have hnames := sameNames_of_lowerSegment hc.lateEntry hfirst
      have hall := Sight.passAll_congr (Sight.pass?_sightFrom hnames f) (Sight.hidden_sightFrom hnames f) d rest
      have hrest' := ih (Sight.pass?_isStatic hc hpass) hrest
      rwa [hall] at hrest'
    | none =>
      obtain ⟨hpath, hends⟩ := lowerSegment_ends hc.isLate hpass hfirst
      obtain ⟨front, p, -, -, hadded, hend⟩ := (Returns.lowerSegments false rest).ok hrest
      obtain ⟨rfl, hended⟩ := hend hends
      exact ⟨hadded.trans ((List.append_nil _).trans hpath), hended⟩

/-! ## The last name -/

theorem Returns.sparing {α : Type} {I : Session → Prop} {Q : α → Prop} {m : Lower α} (h : Returns f m Q)
    (hspares : Spares I f m) : Sparing I f m Q := fun s hs => ⟨(hspares s hs).1, (h s trivial).2⟩

theorem sparing_getSymbol (b : Session) (r : SymbolRef) :
    Sparing (fun t => b.SameNames t) f (getSymbol r) fun x => b.symbol? r = some x := by
  refine fun s hs => ⟨(Sparing.getSymbol r s hs).1, fun x t hrun => ?_⟩
  rw [run_getSymbol, hs.symbol?_eq] at hrun
  split at hrun
  · cases hrun
    assumption
  · cases hrun

/-- Where names stand for the same as in `b`, the path gets the last name as it is stored. -/
theorem sparing_lowerProperty (b : Session) (resolution : Resolution) :
    Sparing (fun t => b.SameNames t) f (lowerProperty property c resolution span) fun d =>
      d.path = if c.isLate then c.path else c.path ++ (sightFrom f b).storedProperty property resolution := by
  have hI := endures_sameNames b f.block
  cases resolution with
  | found r =>
    refine .bind (sparing_getSymbol b r) fun x hx => .andThen (.emitPushm hI _ _ _) fun _ => .pure ?_
    rw [Cursor.path_track, Sight.storedProperty]
    change _ = if c.isLate then c.path else c.path ++ [.ofName _ _ ((b.symbol? r).bind Symbol.classScope)]
    rw [hx]
    rfl
  | inaccessible r =>
    refine .andThen (.report hI _ _ _) fun _ => .andThen (.emitPush hI _ _ _) fun _ => .pure ?_
    simp [Sight.storedProperty]
  | unbound =>
    have hregister := (Returns.registerLateVariable (f := f) (c := c) property.name).sparing
      (Sparing.registerLateVariable hI property.name fun _ _ => Nat.zero_le _).spares
    refine .onlyIf (.warnUnbound hI _ _) (.bind hregister fun p hp => .andThen .classScope fun _ =>
      .andThen (.emitPushm hI _ _ _) fun _ => .pure ?_)
    rw [Cursor.path_track, hp.1, hp.2]
    rfl

theorem storeProperty_path (hrun : storeProperty property c span f s = .ok path t) :
    path = if c.isLate then c.path else
      c.path ++ (sightFrom f s.session).storedProperty property ((sightFrom f s.session).propertyTarget c property) := by
  have hI := endures_sameNames s.session f.block
  have hlast : Sparing (fun t => s.session.SameNames t) f (do
      let d ← lowerProperty property c ((sightFrom f s.session).propertyTarget c property) span
      let _ ← emitPoplist (d.depth + 1) f.scope.classScope span
      return d.path) fun p => p = if c.isLate then c.path else
        c.path ++ (sightFrom f s.session).storedProperty property ((sightFrom f s.session).propertyTarget c property) :=
    .bind (sparing_lowerProperty s.session _) fun d hd => .andThen (.emitPoplist hI _ _ _) fun _ => .pure hd
  replace hrun := sight_bind_ok hrun
  have hdims : Spares (fun t => s.session.SameNames t) f (lowerDims expression property.dims) :=
    .lowerDims (Sparing.anyExpression hI) _
  refine ((Sparing.andThen hdims fun _ => .ite ?_ hlast) s (.refl _)).2 path t hrun
  exact .andThen (.recordIndexing _) fun _ => .andThen (.emitPushDims hI _) fun _ => hlast

/-- Storing into a member tells its path. -/
theorem storeMember_path (hrun : storeMember property segments span f s = .ok path t) :
    path = (sightFrom f s.session).targetPath segments property := by
  obtain ⟨c, u, hwalk, hrun⟩ := bind_eq_ok.mp hrun
  have hI := endures_sameNames s.session f.block
  have hwalked : Spares (fun t => s.session.SameNames t) { f with isTracked := false }
      (lowerSegments expression false (segments.map Node.unwrap) (.start false)) :=
    (Sparing.lowerSegments (f := { f with isTracked := false }) hI (Sparing.anyExpression hI) false _
      (Cursor.isFresh_start _ _)).spares
  have hnames := hwalked.ok (.refl _) hwalk
  have hpassed := lowerSegments_passAll (f := { f with isTracked := false }) (Cursor.isStatic_start false) hwalk
  rw [Sight.passAll_tracked] at hpassed
  replace hrun := sight_bind_ok hrun
  have hstored : path = if c.isStopped = true ∨ c.isLate = true then c.path else
      c.path ++ (sightFrom f s.session).storedName c property := by
    rw [← Sight.storedName_sightFrom hnames]
    unfold Sight.storedName
    rw [run_ite] at hrun
    split at hrun
    · next hstopped =>
      obtain ⟨_, _, -, hrun⟩ := bind_eq_ok.mp hrun
      cases hrun
      rw [if_pos (.inl hstopped)]
    next hgoes =>
    simp only [hgoes, Bool.false_eq_true, false_or]
    cases hsetter : setter? (sightFrom f u.session) c.receiver? property with
    | some r =>
      rw [hsetter] at hrun
      obtain ⟨_, _, -, hrun⟩ := bind_eq_ok.mp hrun
      cases hrun
      exact Cursor.path_track c _
    | none =>
      rw [hsetter] at hrun
      exact storeProperty_path hrun
  unfold Sight.targetPath
  cases hall : (sightFrom f s.session).passAll (.start false) (segments.map Node.unwrap) with
  | ok d =>
    rw [hall] at hpassed
    obtain ⟨rfl, hstatic⟩ := hpassed
    rw [hstored, if_neg]
    simp [hstatic.isLate, hstatic.isStopped]
  | error shown =>
    rw [hall] at hpassed
    obtain ⟨rfl, hends⟩ := hpassed
    rw [hstored, if_pos hends]

end Diglot.Lowering
