import Diglot.Proofs.Paths.Walked

/-! # Chains that are looked up at run time

The first name of a chain that stands for nothing enters a late-bound member, and the names behind it join that entry;
their instructions point to it. The subscripts of the names may enter members as well, in between, but each chain only
extends the entry that it made. `late_path_recorded` puts together what a chain of names leaves behind.
-/

set_option autoImplicit false

namespace Diglot

namespace Lowering

variable {f : Frame} {s t u : State} {c d e : Cursor} {ident : Identifier} {i : Nat} {w : State} {r : Unit} {span : Span}

/-! ## Around the segments -/

/-- The instructions push no segments. -/
def NoSegments (code : List Instruction) : Prop := ∀ i ∈ code, i.opcode ≠ .pushm

theorem noSegments_nil : NoSegments [] := fun _ hi => absurd hi List.not_mem_nil

theorem NoSegments.append {code code' : List Instruction} (h : NoSegments code) (h' : NoSegments code') :
    NoSegments (code ++ code') := List.forall_mem_append.mpr ⟨h, h'⟩

theorem adds_emitGuides {guides : List Guide} (hrun : emitGuides guides f s = .ok r t) :
    s.session.Adds f.block t.session (guideCode f.scope.classScope guides) [] := by
  have hpushes (l : List Guide) {s u : State} {r : Unit} (hrun : (l.forM fun g => do
      let _ ← emitPush (.int g.value) 0 .nil) f s = .ok r u) : s.session.Adds f.block u.session
        (l.map fun g => .ternary .push (.int g.value) (.cls f.scope.classScope) (.arrayDim 0)) [] := by
    induction l generalizing s with
    | nil =>
      cases hrun
      exact .refl _ _
    | cons g rest ih =>
      obtain ⟨_, v, hfirst, hrest⟩ := bind_eq_ok.mp hrun
      obtain ⟨_, _, hpush, hpure⟩ := bind_eq_ok.mp hfirst
      cases hpure
      exact (adds_emits (m := emit (.ternary .push (.int g.value) (.cls f.scope.classScope) (.arrayDim 0)) .nil)
        (Mild.emits_emitStepping _ _ _) hpush).trans (ih hrest)
  obtain ⟨_, u, hguides, hrest⟩ := bind_eq_ok.mp hrun
  obtain ⟨_, _, hindex, hpure⟩ := bind_eq_ok.mp hrest
  cases hpure
  exact (hpushes guides hguides).trans (adds_emits (Mild.emits_emitWith (.unary .pushindex
    (.guideCount guides.length)) .nil none) hindex)

theorem noSegments_guideCode (cls : Option Nat) (guides : List Guide) : NoSegments (guideCode cls guides) := by
  intro i hi
  obtain hi | hi := List.mem_append.mp hi
  · obtain ⟨g, -, rfl⟩ := List.mem_map.mp hi
    exact nofun
  · rw [List.mem_singleton.mp hi]
    exact nofun

theorem adds_recordRead {path : Path} {viaCall : Bool} (hrun : recordRead path viaCall f s = .ok r t) :
    s.session.Adds f.block t.session [] [] := by
  obtain ⟨log, hlog⟩ : ∃ log, t.session = { s.session with log } := by
    obtain ⟨-, rfl⟩ := recordRead_eq_ok.mp hrun
    split
    · exact ⟨_, rfl⟩
    · exact ⟨_, rfl⟩
  rw [hlog]
  exact ⟨.ofSame rfl ⟨rfl, rfl, rfl, rfl, rfl, rfl⟩, (List.append_nil _).symm⟩

/-- What stands around the segments enters nothing and pushes no segments. -/
theorem Walked.pathRecord {front back : List PathPart} {before after : List Instruction} (h : Walked f u w front back)
    (hbefore : s.session.Adds f.block u.session before []) (hafter : w.session.Adds f.block t.session after [])
    (hno : NoSegments (before ++ after)) : PathRecord f s t front back where
  code := ⟨before, after, hno, (hbefore.toAppends.trans h.code).trans hafter.toAppends⟩
  static := h.static
  entries := by
    have hsize : u.session.lateVariables.size = s.session.lateVariables.size := hbefore.size
    refine ⟨front, back, rfl, List.prefix_refl _, ?_, ?_, ?_, ?_⟩
    · rw [hafter.late, h.entries, hbefore.late, List.append_nil, List.append_nil]
    · exact hsize ▸ h.frontLowered.congr hbefore.names
    · exact hsize ▸ h.backLowered.congr hbefore.names
    · exact hsize ▸ h.late

theorem adds_around {m : Lower Nat} {j : Instruction} {a : Nat} (h : Mild.Emits j span m) (hj : j.opcode ≠ .pushm)
    (hrun : m f s = .ok a t) : ∃ code, s.session.Adds f.block t.session code [] ∧ NoSegments code := by
  refine ⟨[j.unmarked], adds_emits h hrun, fun k hk => ?_⟩
  rw [List.mem_singleton.mp hk]
  exact hj

theorem adds_emitPushlist {depth a : Nat} {afterCall : Bool} (hrun : emitPushlist depth afterCall span f s = .ok a t) :
    ∃ code, s.session.Adds f.block t.session code [] ∧ NoSegments code := by
  unfold emitPushlist at hrun
  generalize (if afterCall then Operand.dynamic depth else .int (Operand.clamp depth)) = count at hrun
  exact adds_around (m := emitSilent (.ternary .pushlist count (.cls f.scope.classScope) (.block f.block)) span)
    (Mild.emits_emitWith _ span none) nofun hrun

/-- Around the segments of a chain that is read stands what enters nothing and pushes no segments. -/
theorem chainCursor_around {segments : List Node} (hrun : chainCursor expression segments span f s = .ok c t) :
    ∃ (before after : List Instruction) (u w : State),
      s.session.Adds f.block u.session before [] ∧
      lowerSegments expression true (segments.map Node.unwrap) (.start (segments.length == 1)) f u = .ok c w ∧
      w.session.Adds f.block t.session after [] ∧ NoSegments (before ++ after) := by
  have hsegments {v : State} {before : List Instruction} (hbefore : s.session.Adds f.block v.session before [])
      (hno : NoSegments before) (hrun : (do
        let c ← lowerSegments expression true (segments.map Node.unwrap)
          (.start ((segments.map Node.unwrap).length == 1))
        if 1 < c.depth then
          let _ ← emitPushlist c.depth c.afterCall span
        return c : Lower Cursor) f v = .ok c t) :
      ∃ (before after : List Instruction) (u w : State),
        s.session.Adds f.block u.session before [] ∧
        lowerSegments expression true (segments.map Node.unwrap) (.start (segments.length == 1)) f u = .ok c w ∧
        w.session.Adds f.block t.session after [] ∧ NoSegments (before ++ after) := by
    rw [List.length_map] at hrun
    obtain ⟨d, w, hwalk, hrest⟩ := bind_eq_ok.mp hrun
    rw [run_ite] at hrest
    split at hrest
    · obtain ⟨_, _, hpush, hpure⟩ := bind_eq_ok.mp hrest
      cases hpure
      obtain ⟨after, hafter, hno'⟩ := adds_emitPushlist hpush
      exact ⟨before, after, v, w, hbefore, hwalk, hafter, hno.append hno'⟩
    · cases hrest
      exact ⟨before, [], v, t, hbefore, hwalk, .refl _ _, hno.append noSegments_nil⟩
  obtain ⟨on, v, hwanted, hrun⟩ := bind_eq_ok.mp hrun
  cases hwanted
  rw [run_ite] at hrun
  split at hrun
  · obtain ⟨_, v', hguides, hrun⟩ := bind_eq_ok.mp hrun
    exact hsegments (adds_emitGuides hguides) (noSegments_guideCode _ _) hrun
  · exact hsegments (.refl _ _) noSegments_nil hrun

/-- A chain that is read. -/
theorem lowerChain_pathRecord {idents : List Identifier} {segments : List Node} {type : Ty}
    (hidents : segments.map Node.unwrap = idents.map .identifier) (hlong : 1 < idents.length)
    (hrun : lowerChain expression segments span f s = .ok type t)
    (hcursor : chainCursor expression segments span f s = .ok c u) (hgoes : c.isStopped = false) :
    ∃ front back, (front ++ back).map PathPart.ident = idents ∧ front ≠ [] ∧
      (sightFrom f s.session).ResolvesUpTo false (front.map PathPart.ident) (back.map PathPart.ident) ∧
      PathRecord f s t front back := by
  have hlength : segments.length = idents.length := by simpa using congrArg List.length hidents
  have hne : segments ≠ [] := List.length_pos_iff.mp (by omega)
  have hsingle : (segments.length == 1) = false := by
    rw [hlength]
    exact beq_eq_false_iff_ne.mpr (Nat.ne_of_gt hlong)
  obtain ⟨before, after, v, w, hbefore, hwalk, hafter, hno⟩ := chainCursor_around hcursor
  rw [hidents, hsingle] at hwalk
  have hrecord : u.session.Adds f.block t.session [] [] := by
    rw [lowerChain_eq expression hne, run_bind, hcursor] at hrun
    obtain ⟨_, x, hrecord, hpure⟩ := bind_eq_ok.mp hrun
    cases hpure
    exact adds_recordRead hrecord
  have hafter' : w.session.Adds f.block t.session after [] := by simpa using hafter.trans hrecord
  obtain ⟨front, back, d, hparts, hfront, hfollow, hwalked, hend⟩ :=
    lowerSegments_walked (Cursor.isStatic_start _) rfl hwalk hgoes
  have hnames := hbefore.names
  rw [Sight.follow?_congr hnames] at hfollow
  refine ⟨front, back, hparts, hfront rfl ?_, ?_, hwalked.pathRecord hbefore hafter' hno⟩
  · rintro rfl
    cases hlong
  · obtain ⟨rfl, -⟩ | ⟨⟨p, rest, rfl, hstep⟩, -⟩ := hend
    · exact .read hfollow
    · rw [Sight.stepName?_congr hnames] at hstep
      exact .segment hfollow hstep nofun

variable {g : Frame} {v : State} {property : Identifier} {path : Path}

/-! ## The last name of an assigned chain -/

theorem PathPart.AreLowered.frame {a : Session} {first : Nat} {l : List PathPart} (h : PathPart.AreLowered g a first l)
    (hsite : g.site = f.site) : PathPart.AreLowered f a first l := by
  induction l generalizing first with
  | nil => trivial
  | cons p rest ih =>
    refine ⟨?_, ih h.2⟩
    have hblock := congrArg Frame.block hsite
    change g.block = f.block at hblock
    cases h.1 with
    | bare hinner hentries hdims hoperand => exact .bare hinner hentries hdims hoperand
    | subscripted hg hu hfirst hrun hentries hcode hdims =>
      exact .subscripted (hg.trans hsite) hu hfirst hrun hentries (hblock ▸ hcode) hdims

/-- How reads are recorded makes no difference. -/
theorem Walked.untracked {front back : List PathPart} (h : Walked { f with isTracked := false } s t front back) :
    Walked f s t front back :=
  ⟨h.code, h.entries, h.frontLowered.frame rfl, h.backLowered.frame rfl, h.static, h.late⟩

theorem recordIndexing_ok {literals : List Segment} (hrun : recordIndexing literals f s = .ok r t) :
    t.session = s.session := by
  unfold recordIndexing at hrun
  rw [run_bind, run_read] at hrun
  dsimp only at hrun
  rw [run_ite] at hrun
  split at hrun <;> cases hrun <;> rfl

theorem emitPoplist_eq (f : Frame) (s : State) (depth : Nat) (start : Option Nat) (span : Span) :
    ∃ j : Instruction, j.opcode = .poplist ∧ emitPoplist depth start span f s = emit j span f s :=
  ⟨.ternary .poplist _ _ _, rfl, rfl⟩

theorem adds_emitPoplist {depth a : Nat} {start : Option Nat} (hrun : emitPoplist depth start span f s = .ok a t) :
    ∃ code, s.session.Adds f.block t.session code [] ∧ NoSegments code := by
  obtain ⟨j, hj, hemit⟩ := emitPoplist_eq f s depth start span
  rw [hemit] at hrun
  exact adds_around (Mild.emits_emitStepping j span []) (by rw [hj]; decide) hrun

theorem adds_emitCall {target : ProcRef} {depth a : Nat} (hrun : emitCallTo .call target depth span f s = .ok a t) :
    ∃ code, s.session.Adds f.block t.session code [] ∧ NoSegments code :=
  adds_around (m := emit (.ternary .call (.function (some target.index)) (.cls target.classScope)
    (.int (Operand.clamp depth))) span) (Mild.emits_emitStepping _ span []) nofun hrun

/-- A member is stored behind its subscripts. -/
theorem storeProperty_parts (hrun : storeProperty property c span f s = .ok path t) :
    ∃ (u v w : State) (d : Cursor) (after : List Instruction), lowerDims expression property.dims f s = .ok () u ∧
      u.session.Adds f.block v.session (if 0 < property.dims.length then
        [.binary .push (.arrayDim property.dims.length) (.cls f.scope.classScope)] else []) [] ∧
      lowerProperty property c ((sightFrom f s.session).propertyTarget c property) span f v = .ok d w ∧
      w.session.Adds f.block t.session after [] ∧ NoSegments after := by
  have hbehind {v : State} (hrun : (do
      let c ← lowerProperty property c ((sightFrom f s.session).propertyTarget c property) span
      let _ ← emitPoplist (c.depth + 1) f.scope.classScope span
      return c.path : Lower Path) f v = .ok path t) :
      ∃ (w : State) (d : Cursor) (after : List Instruction),
        lowerProperty property c ((sightFrom f s.session).propertyTarget c property) span f v = .ok d w ∧
        w.session.Adds f.block t.session after [] ∧ NoSegments after := by
    obtain ⟨d, w, hproperty, hrun⟩ := bind_eq_ok.mp hrun
    obtain ⟨_, _, hpop, hpure⟩ := bind_eq_ok.mp hrun
    cases hpure
    obtain ⟨after, hafter, hno⟩ := adds_emitPoplist hpop
    exact ⟨w, d, after, hproperty, hafter, hno⟩
  replace hrun := sight_bind_ok hrun
  obtain ⟨⟨⟩, u, hdims, hrun⟩ := bind_eq_ok.mp hrun
  dsimp only at hrun
  rw [run_ite] at hrun
  split at hrun
  · next hpos =>
    obtain ⟨_, u', hindexing, hrun⟩ := bind_eq_ok.mp hrun
    obtain ⟨_, v, hcount, hrun⟩ := bind_eq_ok.mp hrun
    obtain ⟨w, d, after, hbehind⟩ := hbehind hrun
    have hadds := adds_emitPushDims hcount
    rw [recordIndexing_ok hindexing] at hadds
    refine ⟨u, v, w, d, after, hdims, ?_, hbehind⟩
    rw [if_pos hpos]
    exact hadds
  · next hpos =>
    obtain ⟨w, d, after, hbehind⟩ := hbehind hrun
    refine ⟨u, u, w, d, after, hdims, ?_, hbehind⟩
    rw [if_neg hpos]
    exact .refl _ _

theorem setter?_none (v : Sight) (property : Identifier) : setter? v none property = none := by
  unfold setter?
  split <;> simp_all

theorem setter?_plain {v : Sight} {cls : Option Nat} (h : (setter? v cls property).isSome) : property.dims = [] := by
  unfold setter? at h
  split at h
  · assumption
  · cases h

/-- A member that was found is pushed as what it stands for. -/
theorem lowerProperty_found {ref : SymbolRef} (hrun : lowerProperty property c (.found ref) span f s = .ok d t) :
    ∃ x, s.session.Adds f.block t.session [.ternary .pushm (.ofSymbol x) (.cls x.classScope) (.block f.block)] [] := by
  obtain ⟨x, _, hx, hrun⟩ := bind_eq_ok.mp hrun
  rw [run_getSymbol] at hx
  split at hx
  · cases hx
    obtain ⟨_, _, hpush, hrun⟩ := bind_eq_ok.mp hrun
    cases hrun
    exact ⟨x, adds_emitPushm hpush⟩
  · cases hx

/-- A member that stands for nothing joins the entry of the chain, or makes one. -/
theorem lowerProperty_unbound (hrun : lowerProperty property c .unbound span f s = .ok d t) :
    ∃ u v i c', s.session.Adds f.block u.session [] [] ∧ registerLateVariable property.name c f u = .ok (i, c') v ∧
      v.session.Adds f.block t.session
        [.ternary .pushm (.dynamic i) (.cls f.scope.classScope) (.block f.block)] [] := by
  have hbehind {u : State} (hrun : (do
      let p ← registerLateVariable property.name c
      let _ ← emitPushm (.dynamic p.1) (← classScope) span
      return p.2.track (.ofName property.name none none) : Lower Cursor) f u = .ok d t) :
      ∃ v i c', registerLateVariable property.name c f u = .ok (i, c') v ∧
        v.session.Adds f.block t.session
          [.ternary .pushm (.dynamic i) (.cls f.scope.classScope) (.block f.block)] [] := by
    obtain ⟨p, v, hregister, hrun⟩ := bind_eq_ok.mp hrun
    obtain ⟨_, _, hcls, hrun⟩ := bind_eq_ok.mp hrun
    cases hcls
    obtain ⟨_, _, hpush, hrun⟩ := bind_eq_ok.mp hrun
    cases hrun
    exact ⟨v, p.1, p.2, hregister, adds_emitPushm hpush⟩
  unfold lowerProperty at hrun
  dsimp only at hrun
  rw [run_ite] at hrun
  split at hrun
  · obtain ⟨_, u, hwarn, hrun⟩ := bind_eq_ok.mp hrun
    obtain ⟨v, i, c', hregister⟩ := hbehind hrun
    exact ⟨u, v, i, c', adds_warnUnbound hwarn, hregister⟩
  · obtain ⟨v, i, c', hregister⟩ := hbehind hrun
    exact ⟨s, v, i, c', .refl _ _, hregister⟩

section
variable (hrun : storeProperty property c span f s = .ok path t)
include hrun

theorem storeProperty_found {ref : SymbolRef}
    (htarget : (sightFrom f s.session).propertyTarget c property = .found ref) :
    ∃ (w : State) (after : List Instruction) (p : PathPart), p.ident = property ∧
      (∀ i, p.operand ≠ some (.dynamic i)) ∧ Pushes f s w p ∧
      w.session.Adds f.block t.session after [] ∧ NoSegments after := by
  obtain ⟨u, v, w, d, after, hdims, hcount, hproperty, hafter, hno⟩ := storeProperty_parts hrun
  rw [htarget] at hproperty
  obtain ⟨x, hpush⟩ := lowerProperty_found hproperty
  obtain ⟨code, late, hadds⟩ := adds_lowerDims hdims
  have hpushed := (hadds.trans hcount).trans hpush
  rw [List.append_nil, List.append_nil] at hpushed
  refine ⟨w, after, ⟨property, code, late, property.dims.length, some (.ofSymbol x), x.classScope⟩, rfl, fun i hi => ?_,
    ⟨hpushed, .subscripted rfl (.refl _) rfl hdims hadds.late hadds.toAppends rfl⟩, hafter, hno⟩
  exact Operand.ofSymbol_ne_dynamic x i (Option.some.inj hi)

/-- The last name of an assigned chain is looked up behind its subscripts. -/
theorem storeProperty_unbound (htarget : (sightFrom f s.session).propertyTarget c property = .unbound) :
    ∃ (code : List Instruction) (late : List LateVariable) (i : Nat) (u v w : State) (c' : Cursor)
        (after : List Instruction),
      PathPart.IsLowered f s.session s.session.lateVariables.size
        ⟨property, code, late, property.dims.length, some (.dynamic i), f.scope.classScope⟩ ∧
      s.session.Adds f.block u.session (code ++ if 0 < property.dims.length then
        [.binary .push (.arrayDim property.dims.length) (.cls f.scope.classScope)] else []) late ∧
      registerLateVariable property.name c f u = .ok (i, c') v ∧
      v.session.Adds f.block w.session [.ternary .pushm (.dynamic i) (.cls f.scope.classScope) (.block f.block)] [] ∧
      w.session.Adds f.block t.session after [] ∧ NoSegments after := by
  obtain ⟨u, v, w, d, after, hdims, hcount, hproperty, hafter, hno⟩ := storeProperty_parts hrun
  rw [htarget] at hproperty
  obtain ⟨code, late, hadds⟩ := adds_lowerDims hdims
  obtain ⟨u', v', i, c', hwarn, hregister, hpush⟩ := lowerProperty_unbound hproperty
  have hlowered := (hadds.trans hcount).trans hwarn
  rw [List.append_nil, List.append_nil, List.append_nil] at hlowered
  exact ⟨code, late, i, u', v', w, c', after, .subscripted rfl (.refl _) rfl hdims hadds.late hadds.toAppends rfl,
    hlowered, hregister, hpush, hafter, hno⟩

/-- It joins the entry of its chain. -/
theorem storeProperty_joins (hc : c.IsLateAt i) (hi : i < s.session.lateVariables.size) :
    ∃ (w : State) (after : List Instruction) (p : PathPart), p.ident = property ∧ Joins f i s w [p] ∧
      w.session.Adds f.block t.session after [] ∧ NoSegments after := by
  have htarget : (sightFrom f s.session).propertyTarget c property = .unbound := by
    unfold Sight.propertyTarget
    rw [hc.receiver?]
  obtain ⟨code, late, j, u, v, w, c', after, hlowered, hinner, hregister, hpush, hafter, hno⟩ :=
    storeProperty_unbound hrun htarget
  obtain ⟨heq, hsame, hentries⟩ :=
    registerLateVariable_own hc.lateEntry (Nat.lt_of_lt_of_le hi (hinner.size ▸ Nat.le_add_right ..)) hregister
  cases heq
  refine ⟨w, after, _, rfl, .single ?_ ?_ hlowered rfl, hafter, hno⟩
  · have hcode := (hinner.toAppends.trans hsame).trans hpush.toAppends
    rwa [List.append_nil] at hcode
  · rw [hpush.late, hentries, hinner.late, modify_append, if_pos (by simpa using hi), List.append_nil]

/-- It makes the entry of the chain if it is the first name that is looked up. -/
theorem storeProperty_enters (htarget : (sightFrom f s.session).propertyTarget c property = .unbound)
    (hentry : c.lateEntry = none) :
    ∃ (w : State) (after : List Instruction) (p : PathPart), p.ident = property ∧
      p.operand = some (.dynamic (s.session.lateVariables.size + p.entries.length)) ∧
      p.IsLowered f s.session s.session.lateVariables.size ∧
      s.session.Adds f.block w.session (p.code f)
        (p.entries ++ [⟨property.name, [], f.scope.function, f.scope.classScope⟩]) ∧
      w.session.Adds f.block t.session after [] ∧ NoSegments after := by
  obtain ⟨code, late, i, u, v, w, c', after, hlowered, hinner, hregister, hpush, hafter, hno⟩ :=
    storeProperty_unbound hrun htarget
  obtain ⟨heq, hentered⟩ := registerLateVariable_new hentry hregister
  cases heq
  refine ⟨w, after, _, rfl, ?_, hlowered, ?_, hafter, hno⟩
  · exact congrArg (some ∘ Operand.dynamic) hinner.size
  · have hadds := (hinner.trans hentered).trans hpush
    rwa [List.append_nil, List.append_nil] at hadds

end

/-- A last name that is looked up behind names that are resolved statically. -/
theorem Walked.pathRecord_property {front : List PathPart} {p : PathPart} {after : List Instruction}
    (h : Walked f s u front [])
    (hlate : p.operand = some (.dynamic (u.session.lateVariables.size + p.entries.length)))
    (hlowered : p.IsLowered f u.session u.session.lateVariables.size)
    (hadds : u.session.Adds f.block w.session (p.code f)
      (p.entries ++ [⟨p.ident.name, [], f.scope.function, f.scope.classScope⟩]))
    (hafter : w.session.Adds f.block t.session after []) (hno : NoSegments after) :
    PathRecord f s t front [p] where
  code := by
    have hcode := (h.code.trans hadds.toAppends).trans hafter.toAppends
    rw [List.append_nil] at hcode
    refine ⟨[], after, hno, ?_⟩
    rw [List.nil_append, List.flatMap_append]
    simpa using hcode
  static := h.static
  entries := by
    have hsize : u.session.lateVariables.size =
        s.session.lateVariables.size + (front.flatMap PathPart.entries).length := by
      simpa [ownEntry] using h.size
    rw [hsize] at hlowered hlate
    refine ⟨front ++ [p], [], List.append_nil _, List.prefix_append .., ?_, ?_, trivial, fun q hq => ?_⟩
    · rw [hafter.late, hadds.late, h.entries]
      simp [ownEntry]
    · exact h.frontLowered.append ⟨hlowered.congr h.code.names, trivial⟩
    · rw [List.mem_singleton.mp hq, hlate]
      simp [Nat.add_assoc]

theorem Sight.follow?_isStatic {v : Sight} {idents : List Identifier} (hc : c.IsStatic)
    (hfollow : v.follow? c idents = some d) : d.IsStatic := by
  induction idents generalizing c with
  | nil =>
    cases hfollow
    exact hc
  | cons ident rest ih =>
    rw [follow?_cons] at hfollow
    obtain ⟨e, hstep, hrest⟩ := Option.bind_eq_some_iff.mp hfollow
    exact ih (stepName?_moved hc hstep).isStatic hrest

/-- A chain that is assigned. -/
theorem storeChain_pathRecord {idents : List Identifier} {target : Node} {segments : List Node}
    (hsegments : target.segments = .ok (segments ++ [.identifier property]))
    (hidents : segments.map Node.unwrap = idents.map .identifier) (hne : idents ≠ [])
    (hrun : storeChain target f s = .ok path t)
    (hwalk : untracked (lowerSegments expression false (idents.map .identifier) (.start false)) f s = .ok c u)
    (hgoes : c.isStopped = false)
    (hnull : (setter? (sightFrom f s.session) c.receiver? property).isSome ∨
      ∀ ref, (sightFrom f s.session).propertyTarget c property ≠ .inaccessible ref) :
    ∃ front back, (front ++ back).map PathPart.ident = idents ++ [property] ∧ front ≠ [] ∧
      (sightFrom f s.session).ResolvesUpTo true (front.map PathPart.ident) (back.map PathPart.ident) ∧
      PathRecord f s t front back := by
  obtain ⟨parts, _, hparts, hstore⟩ := bind_eq_ok.mp hrun
  obtain ⟨hflat, rfl⟩ := chainSegments_run hparts
  obtain rfl : segments ++ [.identifier property] = parts := Except.ok.inj (hsegments.symm.trans hflat)
  rw [List.getLast?_concat, List.dropLast_concat] at hstore
  obtain ⟨_, _, hwalk', hstore⟩ := bind_eq_ok.mp hstore
  rw [hidents, hwalk] at hwalk'
  cases hwalk'
  replace hstore := sight_bind_ok hstore
  rw [hgoes, if_neg Bool.false_ne_true] at hstore
  obtain ⟨front, back, d, rfl, hfront, hfollow, hwalked, hend⟩ :=
    lowerSegments_walked (Cursor.isStatic_start _) rfl hwalk hgoes
  have hwalked := hwalked.untracked
  have hnames := hwalked.code.names
  have hsome := hfront rfl hne
  have hfollow := (Sight.follow?_frame (f := f) rfl rfl _ _ _).symm.trans hfollow
  rw [← Sight.setter?_congr hnames, ← Sight.propertyTarget_congr hnames] at hnull
  have hstart : s.session.Adds f.block s.session [] [] := .refl _ _
  obtain ⟨rfl, rfl⟩ | ⟨⟨p, rest, rfl, hstep⟩, hlate⟩ := hend
  · -- All names in front are resolved statically.
    have hstatic {w : State} {p : PathPart} {after : List Instruction} (hp : p.ident = property)
        (hpushes : Pushes f u w p) (hoperand : ∀ i, p.operand ≠ some (.dynamic i))
        (hresolves : (sightFrom f s.session).ResolvesProperty c property)
        (hafter : w.session.Adds f.block t.session after []) (hno : NoSegments after) :
        ∃ front' back, (front' ++ back).map PathPart.ident = (front ++ []).map PathPart.ident ++ [property] ∧
          front' ≠ [] ∧
          (sightFrom f s.session).ResolvesUpTo true (front'.map PathPart.ident) (back.map PathPart.ident) ∧
          PathRecord f s t front' back := by
      refine ⟨front ++ [p], [], by simp [hp], by simp, ?_,
        (hwalked.append (.ofPushes hpushes hoperand)).pathRecord hstart hafter hno⟩
      rw [List.map_append, List.map_singleton, hp]
      exact .assigned hfollow hresolves
    cases hsetter : setter? (sightFrom f u.session) c.receiver? property with
    | some q =>
      rw [hsetter] at hstore
      obtain ⟨_, _, hcall, hpure⟩ := bind_eq_ok.mp hstore
      cases hpure
      obtain ⟨after, hafter, hno⟩ := adds_emitCall hcall
      have hplain : property.dims = [] := setter?_plain (by rw [hsetter]; rfl)
      refine hstatic (p := ⟨property, [], [], 0, none, none⟩) rfl ⟨.refl _ _, ?_⟩ nofun (.inl ?_) hafter hno
      · have hnone : lowerDims expression property.dims f u = .ok () u := by rw [hplain]; rfl
        exact .subscripted rfl (.refl _) rfl hnone (List.append_nil _).symm (.refl _ _) (by rw [hplain]; rfl)
      · rw [← Sight.setter?_congr hnames, hsetter]
        rfl
    | none =>
      rw [hsetter] at hstore hnull
      have htarget := Sight.propertyTarget_congr hnames f c property
      cases hproperty : (sightFrom f u.session).propertyTarget c property with
      | found ref =>
        obtain ⟨w, after, p, hp, hoperand, hpushes, hafter, hno⟩ := storeProperty_found hstore hproperty
        exact hstatic hp hpushes hoperand (.inr ⟨ref, htarget.symm.trans hproperty⟩) hafter hno
      | inaccessible ref =>
        obtain hsome | hnull := hnull
        · cases hsome
        · exact absurd hproperty (hnull ref)
      | unbound =>
        obtain ⟨w, after, p, rfl, hoperand, hlowered, hadds, hafter, hno⟩ :=
          storeProperty_enters hstore hproperty (Sight.follow?_isStatic (Cursor.isStatic_start _) hfollow).lateEntry
        refine ⟨front, [p], by simp, hsome, .property hfollow ?_,
          hwalked.pathRecord_property hoperand hlowered hadds hafter hno⟩
        rintro (hsome | ⟨ref, hfound⟩)
        · rw [← Sight.setter?_congr hnames, hsetter] at hsome
          cases hsome
        · cases hfound.symm.trans (htarget.symm.trans hproperty)
  · rw [hlate.receiver?, setter?_none] at hstore
    have hi : s.session.lateVariables.size + (front.flatMap PathPart.entries).length <
        u.session.lateVariables.size := by
      rw [hwalked.size, ownEntry, List.length_singleton]
      omega
    obtain ⟨w, after, q, rfl, hq, hafter, hno⟩ := storeProperty_joins hstore hlate hi
    refine ⟨front, p :: rest ++ [q], by simp, hsome, ?_, (hwalked.join rfl hq).pathRecord hstart hafter hno⟩
    rw [List.cons_append, List.map_cons]
    refine .segment hfollow ?_ fun _ => by simp
    exact hstep

/-! ## All chains of names -/

/-- The names of a chain up to the first one that is not resolved statically are pushed as what they stand for; from
there on they are looked up at run time, all of them through the one entry that the chain makes. -/
theorem late_path_recorded {isAssigned : Bool} {idents : List Identifier}
    (h : LowersNames f s t isAssigned idents) :
    ∃ front back, (front ++ back).map PathPart.ident = idents ∧ front ≠ [] ∧
      (sightFrom f s.session).ResolvesUpTo isAssigned (front.map PathPart.ident) (back.map PathPart.ident) ∧
      PathRecord f s t front back := by
  cases h with
  | read hidents hlong hrun hcursor hgoes => exact lowerChain_pathRecord hidents hlong hrun hcursor hgoes
  | assigned hsegments hidents hne hrun hwalk hgoes hnull =>
    exact storeChain_pathRecord hsegments hidents hne hrun hwalk hgoes hnull

/-- The names of `x.q[y.r].c`, in which nothing is known of `q`, `r` and `c`. -/
def samplePath : List Identifier :=
  [.plain "x" .nil,
    ⟨"q", [.member (.identifier (.plain "y" .nil)) (.identifier (.plain "r" .nil)) .dot false .nil], [], .nil⟩,
    .plain "c" .nil]

/-- The chain makes one entry, for `q` and `c`, and the one in its subscript makes another. -/
theorem samplePath_recorded :
    ∃ t front back, LowersNames sampleFrame sampleState t false samplePath ∧
      (front ++ back).map PathPart.ident = samplePath ∧
      (sightFrom sampleFrame sampleState.session).ResolvesUpTo false (front.map PathPart.ident)
        (back.map PathPart.ident) ∧
      PathRecord sampleFrame sampleState t front back ∧
      (t.session.lateVariables.toList.map fun v => (v.name, v.members)) = [("q", ["c"]), ("r", [])] := by
  obtain ⟨c, u, hcursor⟩ := ok_of_matches (m := chainCursor expression (samplePath.map .identifier) .nil)
    (f := sampleFrame) (s := sampleState) (by decide +kernel)
  have hgoes := of_decide_eq_true (of_ok (p := fun c _ => decide (c.isStopped = false)) (by decide +kernel) hcursor)
  obtain ⟨type, t, hrun⟩ := ok_of_matches (m := lowerChain expression (samplePath.map .identifier) .nil)
    (f := sampleFrame) (s := sampleState) (by decide +kernel)
  have htables := of_decide_eq_true (of_ok (p := fun _ t => decide ((t.session.lateVariables.toList.map fun v =>
    (v.name, v.members)) = [("q", ["c"]), ("r", [])])) (by decide +kernel) hrun)
  have hlowers : LowersNames sampleFrame sampleState t false samplePath :=
    .read rfl (by decide) hrun hcursor hgoes
  obtain ⟨front, back, hparts, -, hresolves, hrecord⟩ := late_path_recorded hlowers
  exact ⟨t, front, back, hlowers, hparts, hresolves, hrecord, htables⟩

end Lowering

end Diglot
