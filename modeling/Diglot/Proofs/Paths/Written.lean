import Diglot.Proofs.Law.Store
import Diglot.Proofs.Paths.Declared

/-! # The path that a store writes

A store into a chain of names tells the path that it writes. It is the path that a read of the chain
depends on, unless the last name is stored through a setter: that segment names no symbol, and the class
of the setter (`assignTo_written`).
-/

set_option autoImplicit false

namespace Diglot

/-- A chain that is joined by a dot has at least two segments. -/
theorem Node.length_segments_member {left right : Node} {op : Operator} {lastFactor : Bool} {span : Span}
    {l : List Node} (h : (Node.member left right op lastFactor span).segments = .ok l) :
    2 ≤ l.length := by
  unfold segments at h
  split at h
  · split at h
    · cases h
    · next ls hls =>
      split at h
      · cases h
      · next rs hrs =>
        cases h
        have hleft := List.length_pos_iff.mpr (segments_ne_nil hls)
        have hright := List.length_pos_iff.mpr (segments_ne_nil hrs)
        rw [List.length_append]
        omega
  · cases h

namespace Lowering

variable {f : Frame} {s t : State} {c d : Cursor} {idents : List Identifier} {ident : Identifier}
  {type : Ty} {path : Path} {span : Span}

namespace Sight

/-- What the last name of an assigned chain stands for. -/
def propertyTarget (v : Sight) (c : Cursor) (property : Identifier) : Resolution :=
  match c.receiver? with
  | some cls => v.inClass cls property.name
  | none => .unbound

/-- The setter through which a store into a chain of names goes. -/
def setterOf? (v : Sight) (idents : List Identifier) : Option ProcRef :=
  idents.getLast?.bind fun property =>
    (v.follow? (.start false) idents.dropLast).bind fun c => setter? v c.receiver? property

/-- The path that a store into a chain writes, where a read of the chain depends on `p`. -/
def written (v : Sight) (idents : List Identifier) (p : Path) : Path :=
  match v.setterOf? idents with
  | none => p
  | some r => GraphNode.onLast (fun x => { x with symbol := none, classScope := r.classScope }) p

end Sight

/-- The frame of a statement: code of no class, or of a procedure of a class other than `void`, in which
no chain is being split. -/
structure Frame.HasStatements (f : Frame) : Prop where
  own : f.IsOwn
  anchor : f.anchor = none
  notVoid : f.scope.classScope ≠ some Primitive.void.uid

/-! ## Plain names -/

theorem Sight.resolve_sightFrom {a b : Session} (h : a.SameNames b) (f : Frame) (name : String) :
    (sightFrom f b).resolve name = (sightFrom f a).resolve name := by
  unfold sightFrom
  rw [h.enclosing?_eq]
  exact resolve_congr h f _ name

theorem Sight.inClass_sightFrom {a b : Session} (h : a.SameNames b) (f : Frame) (cls : Nat) (name : String) :
    (sightFrom f b).inClass cls name = (sightFrom f a).inClass cls name := by
  unfold sightFrom
  rw [h.enclosing?_eq]
  exact inClass_congr h f _ cls name

/-- Behind a store a name is bound, and if it can be used, it stands for what was stored. -/
theorem targetSymbol_resolves (hf : f.HasStatements) {r : SymbolRef}
    (hrun : targetSymbol ident type f s = .ok r t) :
    (sightFrom f t.session).resolve ident.name ≠ .unbound ∧
      ∀ r', (sightFrom f t.session).resolve ident.name = .found r' → r' = r := by
  obtain ⟨v, u, hsight, hrun⟩ := bind_eq_ok.mp hrun
  have henclosing := (sight_eq_ok.mp hsight).2.2.1
  obtain ⟨rfl, rfl⟩ := sight_ok hsight
  have hdeclare {w : State} {e : Declaration} (hw : u.session.SameNames w.session)
      (he : e.name = ident.name ∧ e.isStatic = false)
      (hfree : ∀ r, (sightFrom f u.session).resolve ident.name ≠ .found r)
      (hrun : allocate e f w = .ok r t) :
      (sightFrom f t.session).resolve ident.name ≠ .unbound ∧
        ∀ r', (sightFrom f t.session).resolve ident.name = .found r' → r' = r := by
    obtain ⟨hd, counters, hblock, rfl, ht⟩ := allocate_own_ok hf.own hrun
    have hcount : w.session.SameNames { w.session with counters } := ⟨rfl, rfl, rfl, rfl, rfl, rfl⟩
    have hsame := hw.trans hcount
    have hblock' : ({ w.session with counters } : Session).header? f.block = some hd := hblock
    have hx : (w.session.declared f e).name = ident.name := he.1
    have hfree' (r : SymbolRef) :
        (sightFrom f { w.session with counters }).resolve ident.name ≠ .found r := by
      rw [Sight.resolve_sightFrom hsame]
      exact hfree r
    rw [ht]
    refine ⟨?_, fun r' hr' => Sight.resolve_entered hblock' _ he.2 hfree' hr'⟩
    rw [← hx]
    refine Sight.resolve_entered_ne hblock' _ ?_ hf.notVoid ?_
    · have hplain := isMember_declared hf.own.declaresLocals w.session e
      unfold Sight.isVisible
      have hmember : ({ w.session.declared f e with position := hd.symbols.size } : Symbol).isMember =
          false := hplain
      rw [hmember]
      simp [Session.declared, symbolOf, sightFrom]
    · rw [hsame.enclosing?_eq, henclosing]
      rfl
  cases hr : (sightFrom f u.session).resolve ident.name with
  | found r' =>
    rw [hr] at hrun
    cases hrun
    rw [hr]
    exact ⟨Resolution.noConfusion, fun r'' h => (Resolution.found.inj h).symm⟩
  | inaccessible r' =>
    rw [hr] at hrun
    obtain ⟨⟨⟩, w, hreport, hrun⟩ := bind_eq_ok.mp hrun
    have hw : u.session.SameNames w.session := by
      cases hreport
      exact ⟨rfl, rfl, rfl, rfl, rfl, rfl⟩
    refine hdeclare hw ⟨rfl, rfl⟩ (fun r'' h => ?_) hrun
    rw [hr] at h
    cases h
  | unbound =>
    rw [hr] at hrun
    refine hdeclare (.refl _) ⟨rfl, rfl⟩ (fun r'' h => ?_) hrun
    rw [hr] at h
    cases h

/-- A store into a plain name writes the path that reading it depends on. -/
theorem storeIdentifier_written (hf : f.HasStatements) (hplain : ident.dims = [])
    (hthis : ident.isThis = false) (hrun : storeIdentifier ident type f s = .ok path t) {isSingle : Bool}
    (hstep : (sightFrom f t.session).stepName? (.start isSingle) ident = some d) : path = d.path := by
  obtain ⟨r, u, x, htarget, hx, rfl, hkept⟩ := storeIdentifier_ok hplain hrun
  rw [Sight.stepName?_congr (hkept.inert rfl).1] at hstep
  obtain ⟨hbound, hfound⟩ := targetSymbol_resolves hf htarget
  have hanchor : (sightFrom f u.session).frame.anchor = none := hf.anchor
  cases hr : (sightFrom f u.session).resolve ident.name with
  | unbound => exact absurd hr hbound
  | inaccessible r' =>
    have hroot : (sightFrom f u.session).segmentTarget ident.name (.start isSingle) = .inaccessible := by
      simp [Sight.segmentTarget, Cursor.start, Sight.rootTarget, hanchor, hr]
    unfold Sight.stepName? at hstep
    rw [hthis, hroot] at hstep
    cases hstep
  | found r' =>
    obtain rfl := hfound r' hr
    have hroot : (sightFrom f u.session).segmentTarget ident.name (.start isSingle) = .symbol r' := by
      simp [Sight.segmentTarget, Cursor.start, Sight.rootTarget, hanchor, hr]
    have hx' : (sightFrom f u.session).session.symbol? r' = some x := hx
    unfold Sight.stepName? at hstep
    rw [hthis, hroot, Bool.false_and, if_neg Bool.false_ne_true] at hstep
    dsimp only at hstep
    rw [hx', hplain] at hstep
    dsimp only at hstep
    split at hstep
    · cases hstep
      cases hdialect : (sightFrom f u.session).frame.dialect <;>
        simp [Cursor.track, Cursor.start, literalDims, Segment.ofName]
    · cases hstep

/-! ## Members -/

theorem onLast_concat {α : Type} (g : α → α) (l : List α) (a : α) :
    GraphNode.onLast g (l ++ [a]) = l ++ [g a] := by
  induction l with
  | nil => rfl
  | cons b rest ih =>
    cases rest with
    | nil => rfl
    | cons e rest => exact congrArg (b :: ·) ih

namespace Sight

/-- Behind another segment a name that is resolved statically is a member of the value's class. -/
theorem stepName?_member {v : Sight} (hdepth : c.depth ≠ 0) (hlate : c.isLate = false)
    (hplain : ident.dims = []) (h : v.stepName? c ident = some d) :
    ∃ cls r x, c.receiver? = some cls ∧ v.inClass cls ident.name = .found r ∧
      v.session.symbol? r = some x ∧ d.path = c.path ++ [.ofName ident.name (some r) x.classScope] := by
  have hroot : (ident.isThis && c.depth == 0) = false := by simp [hdepth]
  unfold stepName? at h
  rw [hroot, if_neg Bool.false_ne_true, segmentTarget, if_neg hdepth, memberTarget] at h
  split at h
  · next r hr =>
    split at hr
    · cases hr
    · split at hr
      · cases hr
      · next cls hcls =>
        split at hr
        · next r' hr' =>
          cases hr
          split at h
          · cases h
          · next x hx =>
            split at h
            · cases h
              refine ⟨cls, r, x, hcls, hr', hx, ?_⟩
              rw [hplain]
              cases v.frame.dialect <;> simp [Cursor.track, hlate, literalDims, Segment.ofName]
            · cases h
        · cases hr
        · cases hr
  · next id hid =>
    split at hid
    · cases hid
    · split at hid
      · cases hid
      · split at hid <;> cases hid
  · cases h

theorem setterOf?_concat (v : Sight) (idents : List Identifier) (property : Identifier) :
    v.setterOf? (idents ++ [property]) =
      (v.follow? (.start false) idents).bind fun c => setter? v c.receiver? property := by
  unfold setterOf?
  rw [List.getLast?_concat, List.dropLast_concat]
  rfl

theorem setterOf?_singleton (v : Sight) (ident : Identifier) : v.setterOf? [ident] = none := by
  change setter? v none ident = none
  unfold setter?
  split <;> simp_all

section
variable {a b : Session} (h : a.SameNames b) (f : Frame)
include h

theorem setter?_congr (cls : Option Nat) (property : Identifier) :
    setter? (sightFrom f b) cls property = setter? (sightFrom f a) cls property := by
  unfold setter?
  have hclasses : (sightFrom f b).session.classes = (sightFrom f a).session.classes := h.classes
  rw [hclasses]
  rfl

theorem propertyTarget_congr (c : Cursor) (property : Identifier) :
    (sightFrom f b).propertyTarget c property = (sightFrom f a).propertyTarget c property := by
  unfold propertyTarget
  cases c.receiver? with
  | none => rfl
  | some cls => exact inClass_sightFrom h f cls property.name

theorem setterOf?_congr (idents : List Identifier) :
    (sightFrom f b).setterOf? idents = (sightFrom f a).setterOf? idents := by
  unfold setterOf?
  simp only [follow?_congr h, setter?_congr h]

theorem written_congr (idents : List Identifier) (p : Path) :
    (sightFrom f b).written idents p = (sightFrom f a).written idents p := by
  unfold written
  rw [setterOf?_congr h]

end

/-- How statements record what they read makes no difference to what they write. -/
theorem written_tracked (f : Frame) (s : Session) (idents : List Identifier) (p : Path) :
    (sightFrom { f with isTracked := true } s).written idents p = (sightFrom f s).written idents p := rfl

end Sight

theorem storeProperty_ok {property : Identifier} {cls : Nat} {r : SymbolRef} {x : Symbol}
    (hplain : property.dims = []) (hlate : c.isLate = false) (hcls : c.receiver? = some cls)
    (hr : (sightFrom f s.session).inClass cls property.name = .found r)
    (hx : s.session.symbol? r = some x) (hrun : storeProperty property c span f s = .ok path t) :
    path = c.path ++ [.ofName property.name (some r) x.classScope] := by
  replace hrun := sight_bind_ok hrun
  rw [hcls, hplain] at hrun
  dsimp only at hrun
  rw [hr] at hrun
  obtain ⟨⟨⟩, w, hdims, hrun⟩ := bind_eq_ok.mp hrun
  cases hdims
  obtain ⟨d, w, hproperty, hrun⟩ := bind_eq_ok.mp hrun
  obtain ⟨_, w', -, hrun⟩ := bind_eq_ok.mp hrun
  cases hrun
  obtain ⟨y, w'', hy, hproperty⟩ := bind_eq_ok.mp hproperty
  rw [run_getSymbol, hx] at hy
  cases hy
  obtain ⟨_, _, -, hproperty⟩ := bind_eq_ok.mp hproperty
  cases hproperty
  simp [Cursor.track, hlate]

/-- A store into a member writes the path of its chain, up to the setter that it goes through. -/
theorem storeMember_written {property : Identifier} (hne : idents ≠ [])
    (hplain : ∀ i ∈ idents ++ [property], i.dims = [])
    (hfollow : (sightFrom f s.session).follow? (.start false) (idents ++ [property]) = some d)
    (hrun : storeMember property (idents.map .identifier) span f s = .ok path t) :
    path = (sightFrom f s.session).written (idents ++ [property]) d.path := by
  have hinit (i : Identifier) (hi : i ∈ idents) : i.dims = [] := hplain i (List.mem_append_left _ hi)
  have hlast : property.dims = [] := hplain property (by simp)
  rw [Sight.follow?_concat] at hfollow
  obtain ⟨c, hfollow, hstep⟩ := Option.bind_eq_some_iff.mp hfollow
  obtain ⟨hlate, hstop, -, hdepth, -⟩ := Sight.follow?_cursor hfollow rfl
  have hbehind : c.depth ≠ 0 := by
    have hlength := List.length_pos_iff.mpr hne
    rw [hdepth]
    omega
  obtain ⟨cls, r, x, hcls, hr, hx, hpath⟩ := Sight.stepName?_member hbehind hlate hlast hstep
  obtain ⟨e, u, hwalk, hrun⟩ := bind_eq_ok.mp hrun
  change lowerSegments expression false ((idents.map Node.identifier).map Node.unwrap) (.start false)
    { f with isTracked := false } s = .ok e u at hwalk
  rw [map_unwrap_identifiers] at hwalk
  have hfollow' := (Sight.follow?_frame (f := f) (g := { f with isTracked := false }) rfl rfl
    s.session (.start false) idents).trans hfollow
  obtain rfl := lowerSegments_follow hinit rfl rfl hfollow' hwalk
  have hu := (((inert_lowerSegments hinit _ _).keeps_ok hwalk).inert rfl).1
  replace hrun := sight_bind_ok hrun
  have hgoes : e.isStopped = false := hstop
  rw [hgoes, if_neg Bool.false_ne_true, Sight.setter?_congr hu] at hrun
  unfold Sight.written
  rw [Sight.setterOf?_concat, hfollow, Option.bind_some, hpath]
  cases hsetter : setter? (sightFrom f s.session) e.receiver? property with
  | none =>
    rw [hsetter] at hrun
    have hr' : (sightFrom f u.session).inClass cls property.name = .found r := by
      rw [Sight.inClass_sightFrom hu]
      exact hr
    exact storeProperty_ok hlast hlate hcls hr' ((hu.symbol?_eq r).trans hx) hrun
  | some q =>
    rw [hsetter] at hrun
    obtain ⟨_, _, -, hrun⟩ := bind_eq_ok.mp hrun
    cases hrun
    dsimp only
    rw [onLast_concat]
    simp [Cursor.track, hlate, Segment.ofName]

/-- Storing into a member without subscripts declares nothing. -/
theorem inert_storeMember {property : Identifier} (hplain : ∀ i ∈ idents ++ [property], i.dims = []) :
    Tame true false (storeMember property (idents.map .identifier) span) := by
  have hinit (i : Identifier) (hi : i ∈ idents) : i.dims = [] := hplain i (List.mem_append_left _ hi)
  have hlast : property.dims = [] := hplain property (by simp)
  have hsegments : Tame true false (lowerSegments expression false
      ((idents.map Node.identifier).map Node.unwrap) (.start false)) := by
    rw [map_unwrap_identifiers]
    exact inert_lowerSegments hinit _ _
  refine .bind (.withReader (fun _ => rfl) hsegments) fun c => .withSight (fun _ => rfl) fun v => ?_
  refine .ite (.bind (.emitPoplist _ _ _) fun _ => .pure _) ?_
  split
  · exact .bind (.emitCallTo _ _ _ _) fun _ => .pure _
  · refine .withSight (fun v => ?_) fun v => ?_
    · simp only [v.inClass_erase]
      rfl
    · rw [hlast]
      refine .bind (.lowerDims_nil _ _) fun _ => ?_
      exact .bind (.lowerProperty _ _ _ _) fun _ => .bind (.emitPoplist _ _ _) fun _ => .pure _

/-! ## Targets -/

/-- A store into a chain of names that is resolved statically behind it writes the path of the chain, up to
the setter that it goes through. -/
theorem assignTo_written (hf : f.HasStatements) {target : Node}
    (htarget : target.segments = .ok (idents.map .identifier)) (hplain : ∀ i ∈ idents, i.dims = [])
    (hfollow : (sightFrom f t.session).follow? (.start (idents.length == 1)) idents = some d)
    (hrun : assignTo target type f s = .ok path t) :
    path = (sightFrom f t.session).written idents d.path := by
  cases target with
  | identifier ident =>
    obtain ⟨ident', rfl⟩ : ∃ i, idents = [i] := by
      have hlength := congrArg List.length (Except.ok.inj htarget)
      rw [List.length_map] at hlength
      exact List.length_eq_one_iff.mp hlength.symm
    cases htarget
    change (if ident.isThis then assignTo.invalid ident.span else storeIdentifier ident type) f s =
      .ok path t at hrun
    rw [run_ite] at hrun
    split at hrun
    · cases hrun
    · next hthis =>
      rw [Sight.follow?_cons] at hfollow
      obtain ⟨e, hstep, he⟩ := Option.bind_eq_some_iff.mp hfollow
      cases he
      unfold Sight.written
      rw [Sight.setterOf?_singleton]
      exact storeIdentifier_written hf (hplain ident (by simp)) (by simpa using hthis) hrun hstep
  | member left right op lastFactor span =>
    obtain ⟨segments, u, hsegments, hrun⟩ := bind_eq_ok.mp hrun
    unfold chainSegments at hsegments
    rw [htarget] at hsegments
    cases hsegments
    cases hlast : (idents.map Node.identifier).getLast? with
    | none =>
      rw [hlast] at hrun
      cases hrun
    | some last =>
      obtain ⟨init, hinit⟩ := List.getLast?_eq_some_iff.mp hlast
      obtain ⟨idents', rest, rfl, hinit', hrest⟩ := List.map_eq_append_iff.mp hinit
      obtain ⟨property, rfl, hproperty⟩ := List.map_eq_singleton_iff.mp hrest
      rw [List.map_append, List.map_singleton, List.getLast?_concat, List.dropLast_concat] at hrun
      dsimp only at hrun
      have hlength := Node.length_segments_member htarget
      rw [List.length_map, List.length_append, List.length_singleton] at hlength
      have hne : idents' ≠ [] := by
        rintro rfl
        simp at hlength
      have hkept := (inert_storeMember hplain).keeps_ok hrun
      rw [Sight.written_congr (hkept.inert rfl).1]
      rw [Sight.follow?_congr (hkept.inert rfl).1] at hfollow
      have hlong : ((idents' ++ [property]).length == 1) = false := by
        rw [List.length_append, List.length_singleton, beq_eq_false_iff_ne]
        omega
      rw [hlong] at hfollow
      exact storeMember_written hne hplain hfollow hrun
  | _ => cases hrun

end Lowering

end Diglot
