import Diglot.Proofs.Paths.Parts

/-! # Walking along a chain of names

The first name that stands for nothing enters a late-bound member, and the names behind it join that entry (`Joins`).
`lowerSegments_walked` puts together what the names of a chain leave behind, one after the other.
-/

set_option autoImplicit false

namespace Diglot

namespace Lowering

variable {α : Type} {f : Frame} {s t u : State} {c d e : Cursor} {ident : Identifier} {a i : Nat} {span : Span}

/-! ## Names that are looked up at run time -/

theorem adds_warnUnbound {name : String} {span : Span} {r : Unit} (hrun : warnUnbound name span f s = .ok r t) :
    s.session.Adds f.block t.session [] [] := by
  replace hrun := sight_bind_ok hrun
  rw [run_report] at hrun
  cases hrun
  exact ⟨.ofSame rfl ⟨rfl, rfl, rfl, rfl, rfl, rfl⟩, (List.append_nil _).symm⟩

/-- The first name of a chain that is looked up makes an entry. -/
theorem registerLateVariable_new {name : String} {r : Nat × Cursor} (hentry : c.lateEntry = none)
    (hrun : registerLateVariable name c f s = .ok r t) :
    r = (s.session.lateVariables.size, { c with lateEntry := some s.session.lateVariables.size }) ∧
      s.session.Adds f.block t.session [] [⟨name, [], f.scope.function, f.scope.classScope⟩] := by
  unfold registerLateVariable at hrun
  simp only [hentry, run_bind, run_getSession, run_read, run_modifySession, run_pure] at hrun
  cases hrun
  exact ⟨rfl, .ofSame rfl ⟨rfl, rfl, rfl, rfl, rfl, rfl⟩, Array.toList_push⟩

/-- The next ones join it. -/
theorem registerLateVariable_own {name : String} {r : Nat × Cursor} (hentry : c.lateEntry = some i)
    (hi : i < s.session.lateVariables.size) (hrun : registerLateVariable name c f s = .ok r t) :
    r = (i, c) ∧ s.session.Appends f.block t.session [] ∧
      t.session.lateVariables.toList = s.session.lateVariables.toList.modify i (LateVariable.extend [name]) := by
  unfold registerLateVariable at hrun
  simp only [hentry, run_bind, run_getSession, hi, if_true, run_modifySession, run_pure] at hrun
  cases hrun
  exact ⟨rfl, .ofSame rfl ⟨rfl, rfl, rfl, rfl, rfl, rfl⟩, Array.toList_modify ..⟩

/-- The names were looked up, and joined the entry. -/
structure Joins (f : Frame) (i : Nat) (s t : State) (back : List PathPart) : Prop where
  code : s.session.Appends f.block t.session (back.flatMap (PathPart.code f))
  entries : t.session.lateVariables.toList =
    s.session.lateVariables.toList.modify i (LateVariable.extend (back.map fun p => p.ident.name)) ++
      back.flatMap PathPart.entries
  lowered : PathPart.AreLowered f s.session s.session.lateVariables.size back
  late : ∀ p ∈ back, p.operand = some (.dynamic i)

namespace Joins

theorem nil (f : Frame) (i : Nat) (s : State) : Joins f i s s [] where
  code := .refl _ _
  entries := by
    have hnone : LateVariable.extend [] = id := funext fun e => by simp [LateVariable.extend]
    simp [hnone]
  lowered := trivial
  late := nofun

theorem size {back : List PathPart} (h : Joins f i s t back) :
    t.session.lateVariables.size = s.session.lateVariables.size + (back.flatMap PathPart.entries).length := by
  simpa using congrArg List.length h.entries

theorem append {back back' : List PathPart} (hi : i < s.session.lateVariables.size) (h : Joins f i s u back)
    (h' : Joins f i u t back') : Joins f i s t (back ++ back') where
  code := by
    rw [List.flatMap_append]
    exact h.code.trans h'.code
  entries := by
    have hboth : LateVariable.extend (back'.map fun p => p.ident.name) ∘
        LateVariable.extend (back.map fun p => p.ident.name) =
          LateVariable.extend ((back ++ back').map fun p => p.ident.name) :=
      funext fun e => by simp [LateVariable.extend]
    rw [h'.entries, h.entries, modify_append, if_pos (by simpa using hi), List.modify_modify_eq, hboth,
      List.flatMap_append, List.append_assoc]
  lowered := by
    refine h.lowered.append ?_
    rw [← h.size]
    exact h'.lowered.congr h.code.names
  late p hp := by
    obtain hp | hp := List.mem_append.mp hp
    · exact h.late p hp
    · exact h'.late p hp

theorem single {p : PathPart} (hcode : s.session.Appends f.block t.session (p.code f))
    (hentries : t.session.lateVariables.toList =
      s.session.lateVariables.toList.modify i (LateVariable.extend [p.ident.name]) ++ p.entries)
    (hlowered : p.IsLowered f s.session s.session.lateVariables.size) (hlate : p.operand = some (.dynamic i)) :
    Joins f i s t [p] where
  code := by simpa using hcode
  entries := by simpa using hentries
  lowered := ⟨hlowered, trivial⟩
  late := by simpa using hlate

end Joins

/-- Behind the registration the name is pushed as a position in the table. -/
theorem pushes_dynamic (hrun : (do
      lowerDims expression ident.dims
      if 0 < ident.dims.length then
        let _ ← emitPushDims ident.dims.length
      let _ ← emitPushm (.dynamic i) (← classScope) ident.span
      return d : Lower Cursor) f s = .ok e t) :
    e = d ∧ ∃ p, p.ident = ident ∧ p.operand = some (.dynamic i) ∧ Pushes f s t p := by
  obtain ⟨⟨⟩, w, hdims, hrun⟩ := bind_eq_ok.mp hrun
  obtain ⟨code, late, hadds⟩ := adds_lowerDims hdims
  obtain ⟨_, hcount, hrun⟩ := pushDims_ok hrun
  obtain ⟨_, _, hcls, hrun⟩ := bind_eq_ok.mp hrun
  cases hcls
  obtain ⟨_, _, hpush, hrun⟩ := bind_eq_ok.mp hrun
  cases hrun
  have hpushed := (hadds.trans hcount).trans (adds_emitPushm hpush)
  rw [List.append_nil, List.append_nil] at hpushed
  exact ⟨rfl, ⟨ident, code, late, ident.dims.length, some (.dynamic i), f.scope.classScope⟩, rfl, rfl, hpushed,
    .subscripted rfl (.refl _) rfl hdims hadds.late hadds.toAppends rfl⟩

/-- The chain is looked up at run time, and has the given entry. -/
structure Cursor.IsLateAt (i : Nat) (c : Cursor) : Prop where
  lateEntry : c.lateEntry = some i
  type : c.type = .var
  anchor : c.anchor = none
  behind : c.depth ≠ 0
  isStopped : c.isStopped = false

theorem Cursor.IsLateAt.receiver? (h : c.IsLateAt i) : c.receiver? = none := by
  unfold Cursor.receiver?
  rw [h.anchor, h.type]
  rfl

/-- What stands behind such a name is not resolved either. -/
theorem Cursor.IsLateAt.stepName? (h : c.IsLateAt i) (v : Sight) (ident : Identifier) : v.stepName? c ident = none := by
  have hthis : (ident.isThis && c.depth == 0) = false := by simp [h.behind]
  have harray : c.onArray = false := by
    unfold Cursor.onArray
    rw [h.anchor, h.type]
    rfl
  unfold Sight.stepName? Sight.segmentTarget Sight.memberTarget
  rw [hthis, if_neg Bool.false_ne_true, if_neg h.behind, harray, h.receiver?]
  rfl

theorem stopChain_isStopped {span : Span} (hrun : stopChain c span f s = .ok e t) : e.isStopped = true := by
  obtain ⟨_, _, -, hrun⟩ := bind_eq_ok.mp hrun
  cases hrun
  rfl

/-- A symbol that may be used does not end the chain. -/
theorem lowerSymbol_goes {part : LowerPart} {r : SymbolRef} (hrun : lowerSymbol part ident c r f s = .ok e t)
    (hgoes : e.isStopped = false) :
    ∃ x, s.session.symbol? r = some x ∧ (x.isStatic || c.anchor.isNone) = true := by
  obtain ⟨x, _, hx, hrun⟩ := bind_eq_ok.mp hrun
  rw [run_getSymbol] at hx
  cases hsymbol : s.session.symbol? r with
  | none =>
    rw [hsymbol] at hx
    cases hx
  | some y =>
    rw [hsymbol] at hx
    cases hx
    refine ⟨x, rfl, ?_⟩
    cases hstatic : x.isStatic with
    | true => rfl
    | false =>
      cases hanchor : c.anchor with
      | none => rfl
      | some cls =>
        rw [hstatic, if_neg Bool.false_ne_true, hanchor] at hrun
        obtain ⟨_, _, -, hrun⟩ := bind_eq_ok.mp hrun
        obtain ⟨_, _, -, hrun⟩ := bind_eq_ok.mp hrun
        rw [stopChain_isStopped hrun] at hgoes
        cases hgoes

/-- A name that is not resolved statically and does not end the chain is looked up at run time. -/
theorem lowerIdentifier_late (hstep : (sightFrom f s.session).stepName? c ident = none)
    (hrun : lowerIdentifier expression ident c f s = .ok e t) (hgoes : e.isStopped = false) :
    c.depth ≠ 0 ∧ lowerLate expression ident c f s = .ok e t := by
  have hstop {span : Span} {c' : Cursor} {s' : State} (hrun : stopChain c' span f s' = .ok e t) : False := by
    rw [stopChain_isStopped hrun] at hgoes
    cases hgoes
  unfold Sight.stepName? at hstep
  unfold lowerIdentifier at hrun
  split at hstep
  · cases hstep
  · next hthis =>
    rw [if_neg hthis] at hrun
    replace hrun := sight_bind_ok hrun
    cases htarget : (sightFrom f _).segmentTarget ident.name c with
    | symbol r =>
      rw [htarget] at hrun hstep
      obtain ⟨x, hx, hstatic⟩ := lowerSymbol_goes hrun hgoes
      have hx' : (sightFrom f _).session.symbol? r = some x := hx
      dsimp only at hstep
      rw [hx'] at hstep
      dsimp only at hstep
      rw [if_pos hstatic] at hstep
      cases hstep
    | cls id =>
      rw [htarget] at hstep
      cases hstep
    | inaccessible =>
      rw [htarget] at hrun
      obtain ⟨_, _, -, hrun⟩ := bind_eq_ok.mp hrun
      obtain ⟨_, _, -, hrun⟩ := bind_eq_ok.mp hrun
      exact (hstop hrun).elim
    | arrayReceiver =>
      rw [htarget] at hrun
      exact (hstop hrun).elim
    | unbound =>
      rw [htarget] at hrun
      dsimp only at hrun
      rw [run_ite] at hrun
      split at hrun
      · obtain ⟨_, _, -, hrun⟩ := bind_eq_ok.mp hrun
        exact (hstop hrun).elim
      · next hbehind => exact ⟨hbehind, hrun⟩

/-- Looks up a name at run time that follows such a one. -/
theorem lowerLate_joins (hc : c.IsLateAt i) (hi : i < s.session.lateVariables.size)
    (hrun : lowerLate expression ident c f s = .ok e t) :
    e.IsLateAt i ∧ ∃ p, p.ident = ident ∧ Joins f i s t [p] := by
  unfold lowerLate at hrun
  rw [hc.receiver?, Option.isSome_none, if_neg Bool.false_ne_true] at hrun
  obtain ⟨r, u, hregister, hrun⟩ := bind_eq_ok.mp hrun
  obtain ⟨rfl, hsame, hentries⟩ := registerLateVariable_own hc.lateEntry hi hregister
  obtain ⟨rfl, p, rfl, hlate, hp⟩ := pushes_dynamic hrun
  have hsize : u.session.lateVariables.size = s.session.lateVariables.size := by
    simpa using congrArg List.length hentries
  refine ⟨⟨hc.lateEntry, rfl, rfl, Nat.succ_ne_zero _, hc.isStopped⟩, p, rfl, ?_⟩
  refine .single (hsame.trans hp.adds.toAppends) ?_ (hsize ▸ hp.lowered.congr hsame.names) hlate
  rw [hp.adds.late, hentries]

/-- The first name of a chain that is looked up at run time makes an entry. -/
theorem lowerLate_enters (hentry : c.lateEntry = none) (hstopped : c.isStopped = false)
    (hrun : lowerLate expression ident c f s = .ok e t) :
    e.IsLateAt s.session.lateVariables.size ∧ ∃ p : PathPart, p.ident = ident ∧
      p.operand = some (.dynamic s.session.lateVariables.size) ∧
      s.session.Adds f.block t.session (p.code f)
        (⟨ident.name, [], f.scope.function, f.scope.classScope⟩ :: p.entries) ∧
      p.IsLowered f s.session (s.session.lateVariables.size + 1) := by
  obtain ⟨w, hwarned, hrun⟩ : ∃ w, s.session.Adds f.block w.session [] [] ∧
      finishLate expression ident c f w =
        .ok e t := by
    unfold lowerLate at hrun
    rw [run_ite] at hrun
    split at hrun
    · obtain ⟨_, w, hwarn, hrun⟩ := bind_eq_ok.mp hrun
      exact ⟨w, adds_warnUnbound hwarn, hrun⟩
    · exact ⟨s, .refl _ _, hrun⟩
  obtain ⟨r, u, hregister, hrun⟩ := bind_eq_ok.mp hrun
  obtain ⟨rfl, hadds⟩ := registerLateVariable_new hentry hregister
  obtain ⟨rfl, p, rfl, hlate, hp⟩ := pushes_dynamic hrun
  have hentered := hwarned.trans hadds
  have hsize : w.session.lateVariables.size = s.session.lateVariables.size := hwarned.size
  rw [hsize] at hlate
  have hsize' := hentered.size
  refine ⟨⟨congrArg some hsize, rfl, rfl, Nat.succ_ne_zero _, hstopped⟩, p, rfl, hlate, ?_, ?_⟩
  · have hall := hentered.trans hp.adds
    simpa using hall
  · have := hp.lowered.congr hentered.names
    rw [hsize'] at this
    exact this

/-! ## Walking along a chain -/

/-- From `s` to `t` the names of a chain were lowered, those in front resolved statically. -/
structure Walked (f : Frame) (s t : State) (front back : List PathPart) : Prop where
  code : s.session.Appends f.block t.session ((front ++ back).flatMap (PathPart.code f))
  entries : t.session.lateVariables.toList = s.session.lateVariables.toList ++ front.flatMap PathPart.entries ++
    ownEntry f back ++ back.flatMap PathPart.entries
  frontLowered : PathPart.AreLowered f s.session s.session.lateVariables.size front
  backLowered : PathPart.AreLowered f s.session
    (s.session.lateVariables.size + (front.flatMap PathPart.entries).length + (ownEntry f back).length) back
  static : ∀ p ∈ front, ∀ i, p.operand ≠ some (.dynamic i)
  late : ∀ p ∈ back,
    p.operand = some (.dynamic (s.session.lateVariables.size + (front.flatMap PathPart.entries).length))

namespace Walked

theorem nil (f : Frame) (s : State) : Walked f s s [] [] where
  code := .refl _ _
  entries := by simp [ownEntry]
  frontLowered := trivial
  backLowered := trivial
  static := nofun
  late := nofun

theorem ofPushes {p : PathPart} (h : Pushes f s t p) (hstatic : ∀ i, p.operand ≠ some (.dynamic i)) :
    Walked f s t [p] [] where
  code := by simpa using h.adds.toAppends
  entries := by simpa [ownEntry] using h.adds.late
  frontLowered := ⟨h.lowered, trivial⟩
  backLowered := trivial
  static := by simpa using hstatic
  late := nofun

/-- The first name that is looked up makes the entry. -/
theorem enters {p : PathPart} (hlate : p.operand = some (.dynamic s.session.lateVariables.size))
    (hadds : s.session.Adds f.block t.session (p.code f)
      (⟨p.ident.name, [], f.scope.function, f.scope.classScope⟩ :: p.entries))
    (hlowered : p.IsLowered f s.session (s.session.lateVariables.size + 1)) : Walked f s t [] [p] where
  code := by simpa using hadds.toAppends
  entries := by simpa [ownEntry] using hadds.late
  frontLowered := trivial
  backLowered := ⟨hlowered, trivial⟩
  static := nofun
  late := by simpa using hlate

theorem size {front back : List PathPart} (h : Walked f s t front back) :
    t.session.lateVariables.size = s.session.lateVariables.size + (front.flatMap PathPart.entries).length +
      (ownEntry f back).length + (back.flatMap PathPart.entries).length := by
  simpa [← Nat.add_assoc] using congrArg List.length h.entries

theorem append {l front back : List PathPart} (h : Walked f s u l []) (h' : Walked f u t front back) :
    Walked f s t (l ++ front) back := by
  have hsize : u.session.lateVariables.size = s.session.lateVariables.size + (l.flatMap PathPart.entries).length := by
    simpa [ownEntry] using h.size
  have hlength : s.session.lateVariables.size + ((l ++ front).flatMap PathPart.entries).length =
      u.session.lateVariables.size + (front.flatMap PathPart.entries).length := by
    rw [hsize, List.flatMap_append, List.length_append, Nat.add_assoc]
  refine ⟨?_, ?_, h.frontLowered.append ?_, ?_, fun p hp => ?_, fun p hp => ?_⟩
  · have hcode := h.code.trans h'.code
    rwa [List.append_nil, ← List.flatMap_append, ← List.append_assoc] at hcode
  · rw [h'.entries, h.entries]
    simp [ownEntry]
  · rw [← hsize]
    exact h'.frontLowered.congr h.code.names
  · rw [hlength]
    exact h'.backLowered.congr h.code.names
  · obtain hp | hp := List.mem_append.mp hp
    · exact h.static p hp
    · exact h'.static p hp
  · rw [hlength]
    exact h'.late p hp

/-- Further names join the entry. -/
theorem join {front rest : List PathPart} {p : PathPart} {back' : List PathPart} (h : Walked f s u front (p :: rest))
    (hi : i = s.session.lateVariables.size + (front.flatMap PathPart.entries).length) (h' : Joins f i u t back') :
    Walked f s t front (p :: rest ++ back') := by
  refine ⟨?_, ?_, h.frontLowered, h.backLowered.append ?_, h.static, fun q hq => ?_⟩
  · have hcode := h.code.trans h'.code
    rwa [← List.flatMap_append, List.append_assoc] at hcode
  · have hplace : i = (s.session.lateVariables.toList ++ front.flatMap PathPart.entries).length := by
      simp [hi]
    rw [h'.entries, h.entries, List.append_assoc _ (ownEntry f _), hplace, modify_append, if_neg (Nat.lt_irrefl _),
      Nat.sub_self]
    simp [ownEntry, LateVariable.extend]
  · have hback := h'.lowered.congr h.code.names
    rwa [h.size] at hback
  · obtain hq | hq := List.mem_append.mp hq
    · exact h.late q hq
    · exact hi ▸ h'.late q hq

end Walked

/-- Behind the end of a chain nothing is lowered. -/
theorem lowerSegments_goes {part : LowerPart} {isRoot : Bool} {segments : List Node}
    (hrun : lowerSegments part isRoot segments c f s = .ok e t) (hgoes : e.isStopped = false) :
    c.isStopped = false := by
  cases segments with
  | nil =>
    cases hrun
    exact hgoes
  | cons n rest =>
    cases hc : c.isStopped with
    | false => rfl
    | true =>
      rw [lowerSegments, hc, if_pos rfl] at hrun
      cases hrun
      exact hc.symm.trans hgoes

/-- The names behind one that is looked up at run time join its entry. -/
theorem lowerSegments_joins {idents : List Identifier} (hc : c.IsLateAt i) (hi : i < s.session.lateVariables.size)
    {isRoot : Bool} (hrun : lowerSegments expression isRoot (idents.map .identifier) c f s = .ok e t)
    (hgoes : e.isStopped = false) :
    e.IsLateAt i ∧ ∃ back : List PathPart, back.map PathPart.ident = idents ∧ Joins f i s t back := by
  induction idents generalizing c s isRoot with
  | nil =>
    cases hrun
    exact ⟨hc, [], rfl, .nil f i _⟩
  | cons ident rest ih =>
    rw [List.map_cons, lowerSegments, hc.isStopped, if_neg Bool.false_ne_true] at hrun
    obtain ⟨d, u, hfirst, hrest⟩ := bind_eq_ok.mp hrun
    obtain ⟨-, hlate⟩ := lowerIdentifier_late (hc.stepName? _ ident) hfirst (lowerSegments_goes hrest hgoes)
    obtain ⟨hd, p, rfl, hp⟩ := lowerLate_joins hc hi hlate
    obtain ⟨he, back, rfl, hback⟩ := ih hd (Nat.lt_of_lt_of_le hi (hp.size ▸ Nat.le_add_right ..)) hrest
    exact ⟨he, p :: back, rfl, hp.append hi hback⟩

theorem stepName?_isSingle {v : Sight} (hstep : v.stepName? c ident = some d) : d.isSingle = c.isSingle := by
  have htrack (c : Cursor) (x : Segment) : (c.track x).isSingle = c.isSingle := by
    unfold Cursor.track
    split <;> rfl
  unfold Sight.stepName? at hstep
  split at hstep
  · cases hstep
    exact htrack _ _
  · split at hstep
    · split at hstep
      · cases hstep
      · split at hstep
        · cases hstep
          exact htrack _ _
        · cases hstep
    · cases hstep
      exact htrack _ _
    · cases hstep

/-- The names of a chain up to the first one that is not resolved statically are pushed as what they stand for, and
the others are looked up. -/
theorem lowerSegments_walked {idents : List Identifier} (hc : c.IsStatic) (hsingle : c.isSingle = false) {isRoot : Bool}
    (hrun : lowerSegments expression isRoot (idents.map .identifier) c f s = .ok e t) (hgoes : e.isStopped = false) :
    ∃ (front back : List PathPart) (d : Cursor), (front ++ back).map PathPart.ident = idents ∧
      (c.depth = 0 → idents ≠ [] → front ≠ []) ∧
      (sightFrom f s.session).follow? c (front.map PathPart.ident) = some d ∧ Walked f s t front back ∧
      (back = [] ∧ e = d ∨
        (∃ p rest, back = p :: rest ∧ (sightFrom f s.session).stepName? d p.ident = none) ∧
          e.IsLateAt (s.session.lateVariables.size + (front.flatMap PathPart.entries).length)) := by
  induction idents generalizing c s isRoot with
  | nil =>
    cases hrun
    exact ⟨[], [], _, rfl, fun _ hne => absurd rfl hne, rfl, .nil f _, .inl ⟨rfl, rfl⟩⟩
  | cons ident rest ih =>
    rw [List.map_cons, lowerSegments, hc.isStopped, if_neg Bool.false_ne_true] at hrun
    obtain ⟨d, u, hfirst, hrest⟩ := bind_eq_ok.mp hrun
    cases hstep : (sightFrom f s.session).stepName? c ident with
    | some d' =>
      obtain rfl := lowerIdentifier_step hstep hfirst
      obtain ⟨p, rfl, hstatic, hp⟩ := lowerIdentifier_pushes hsingle hstep hfirst
      have hmoved := Sight.stepName?_moved hc hstep
      have hwalked := Walked.ofPushes hp hstatic
      have hsize : u.session.lateVariables.size = s.session.lateVariables.size + p.entries.length := hp.adds.size
      obtain ⟨front, back, e', rfl, -, hfollow, hrest, hend⟩ :=
        ih hmoved.isStatic ((stepName?_isSingle hstep).trans hsingle) hrest
      rw [Sight.follow?_congr hp.adds.names] at hfollow
      refine ⟨p :: front, back, e', rfl, fun _ _ => List.cons_ne_nil _ _, ?_, hwalked.append hrest, ?_⟩
      · rw [List.map_cons, Sight.follow?_cons, hstep]
        exact hfollow
      · rw [hsize] at hend
        simpa only [Sight.stepName?_congr hp.adds.names, List.flatMap_cons, List.length_append,
          ← Nat.add_assoc] using hend
    | none =>
      obtain ⟨hbehind, hlate⟩ := lowerIdentifier_late hstep hfirst (lowerSegments_goes hrest hgoes)
      obtain ⟨hd, p, rfl, hoperand, hadds, hlowered⟩ := lowerLate_enters hc.lateEntry hc.isStopped hlate
      have hsize := hadds.size
      obtain ⟨he, back, rfl, hback⟩ := lowerSegments_joins hd (by rw [hsize]; simp) hrest hgoes
      have hwalked := Walked.enters hoperand hadds hlowered
      exact ⟨[], p :: back, c, rfl, fun hdepth => absurd hdepth hbehind, rfl, hwalked.join rfl hback,
        .inr ⟨⟨p, back, rfl, hstep⟩, he⟩⟩

end Lowering

end Diglot
