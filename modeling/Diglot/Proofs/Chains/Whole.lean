import Diglot.Proofs.Chains.Splitting
import Diglot.Proofs.Chains.Unspent

/-! # A chain as a whole and split

The assignment `y = c` of a chain `c` that is resolved statically is lowered twice, as a whole and split. The
split run finishes whenever the other one does. It reports, registers and calls the same, and its nodes read
the chain segment by segment, each behind the variable that holds the value so far (`lowerUpdate_split`).

If `y` is a new variable, the split run declares it with the type of the variable that was made up last. That is
the type of `y` in the whole run, unless the chain has no type to declare a variable with.
-/

set_option autoImplicit false

namespace Diglot

/-- The session with the option to split chains. -/
def Session.splitting (s : Session) : Session := { s with options := { s.options with fullSsa := true } }

namespace Lowering

variable {f : Frame} {s s' t t' u v w x : State} {anchor : Option Nat} {c d : Cursor} {value : Node}
  {span : Span} {part : LowerPart} {segments : List Node}

/-! ## Reading runs backwards -/

/-- Around its segments, lowering a chain is silent. -/
theorem lowerChain_unmoved {type : Ty} (hs : f.Proceeds s) (htracked : f.isTracked = true)
    (hunwrap : segments.map Node.unwrap = segments)
    (hrun : lowerChain part segments span f s = .ok type t) :
    ∃ u c w, Unmoved f.block s u ∧
      lowerSegments part true segments (.start (segments.length == 1)) f u = .ok c w ∧
      type = (if c.isStopped then .null else c.type) ∧
      (f.Proceeds w → c.path ≠ [] → Unmoved f.block w t ∧ c.path.bare ∈ t.node.inputs) := by
  have hrest {u : State} (hu : Unmoved f.block s u)
      (hrun : finishChain part segments (segments.length == 1) span f u = .ok type t) :
      ∃ u c w, Unmoved f.block s u ∧
        lowerSegments part true segments (.start (segments.length == 1)) f u = .ok c w ∧
        type = (if c.isStopped then .null else c.type) ∧
        (f.Proceeds w → c.path ≠ [] → Unmoved f.block w t ∧ c.path.bare ∈ t.node.inputs) := by
    obtain ⟨c, w, hsegments, hrun⟩ := bind_eq_ok.mp hrun
    have hrecord {x : State} (hwx : f.Proceeds w → Unmoved f.block w x) (hrun : (do
          recordRead c.path c.hasCall
          return if c.isStopped then .null else c.type : Lower Ty) f x = .ok type t) :
        type = (if c.isStopped then .null else c.type) ∧
          (f.Proceeds w → c.path ≠ [] → Unmoved f.block w t ∧ c.path.bare ∈ t.node.inputs) := by
      obtain ⟨⟨⟩, y, hread, hend⟩ := bind_eq_ok.mp hrun
      cases hend
      refine ⟨rfl, fun hw hpath => ?_⟩
      have hx := hw.congr (hwx hw).constant
      obtain ⟨t', hread', hxt, hinput⟩ := run_recordRead hx htracked hpath c.hasCall
      cases hread.symm.trans hread'
      exact ⟨(hwx hw).trans hxt, hinput⟩
    rw [run_ite] at hrun
    split at hrun
    · obtain ⟨_, x, hlist, hrun⟩ := bind_eq_ok.mp hrun
      have hsilent := Silent.emitPushlist c.depth c.afterCall span
      exact ⟨u, c, w, hu, hsegments, hrecord (fun hw => hsilent.unmoved hw hlist) hrun⟩
    · exact ⟨u, c, w, hu, hsegments, hrecord (fun _ => .refl _ w) hrun⟩
  unfold lowerChain at hrun
  rw [hunwrap, run_ite] at hrun
  split at hrun
  · cases hrun
  · obtain ⟨on, u, hwanted, hrun⟩ := bind_eq_ok.mp hrun
    cases hwanted
    rw [run_ite] at hrun
    split at hrun
    · obtain ⟨⟨⟩, w, hguides, hrun⟩ := bind_eq_ok.mp hrun
      exact hrest ((Silent.emitGuides _).unmoved hs hguides) hrun
    · exact hrest (.refl _ s) hrun

/-! ## Committing -/

/-- The nodes became part of a block, one after the other, and nothing else has changed that is compared. -/
structure Committed (block : Nat) (ns : List GraphNode) (s t : State) : Prop where
  names : s.session.SameNames t.session
  reticent : Reticent s t
  callees : t.session.callees block = s.session.callees block
  nodes : t.session.nodes block = s.session.nodes block ++ (ns.map fun n => { n with isSealed := true }).toArray

theorem run_commit_open {block : Nat} {n : GraphNode} (hn : n.isSealed = false) (hblock : n.block = block)
    (hs : (s.session.block? block).isSome) : ∃ t, commit n f s = .ok () t ∧ Committed block [n] s t := by
  obtain ⟨b, hb⟩ := Option.isSome_iff_exists.mp hs
  subst hblock
  have hb' : (s.session.note .trace .graph ("sealed " ++ n.text)).block? n.block = some b := hb
  have hrun : commit n f s = .ok () { s with
      session := (s.session.note .trace .graph ("sealed " ++ n.text)).modifyBlock n.block
        fun b => { b with graph := b.graph.push { n with isSealed := true } } } := by
    rw [run_commit, hn, if_neg Bool.false_ne_true, modifyBlock_run]
    dsimp only
    rw [hb']
  have hnames := Session.sameNames_modifyBlock
    (g := fun b => { b with graph := b.graph.push { n with isSealed := true } }) (fun _ => rfl)
    (s.session.note .trace .graph ("sealed " ++ n.text)) n.block
  refine ⟨_, hrun, ⟨rfl, rfl, rfl, rfl, hnames.size, hnames.headers⟩, ⟨rfl, rfl, rfl, rfl, rfl, rfl⟩, ?_, ?_⟩
  · unfold Session.callees Session.stream
    rw [Session.block?_modifyBlock, if_pos rfl, hb']
    change (if s.session.isWatching then _ else _ : Array Instruction).toList.filterMap _ =
      (if s.session.isWatching then _ else _ : Array Instruction).toList.filterMap _
    rw [hb]
    rfl
  · unfold Session.nodes
    rw [Session.block?_modifyBlock, if_pos rfl, hb', hb]
    simp

theorem run_forM_commit {block : Nat} {ns : List GraphNode}
    (hns : ∀ n ∈ ns, n.isSealed = false ∧ n.block = block) (hs : (s.session.block? block).isSome) :
    ∃ t, ns.forM commit f s = .ok () t ∧ Committed block ns s t := by
  induction ns generalizing s with
  | nil => exact ⟨s, rfl, .refl _, .refl s, rfl, by simp⟩
  | cons n rest ih =>
    obtain ⟨hopen, hblock⟩ := hns n (List.mem_cons_self ..)
    obtain ⟨u, hfirst, hu⟩ := run_commit_open (f := f) hopen hblock hs
    obtain ⟨t, hrest, ht⟩ := ih (fun m hm => hns m (List.mem_cons_of_mem n hm))
      (by rwa [hu.names.block?_isSome])
    refine ⟨t, bind_eq_ok.mpr ⟨(), u, hfirst, hrest⟩, hu.names.trans ht.names, hu.reticent.trans ht.reticent,
      ht.callees.trans hu.callees, ?_⟩
    rw [ht.nodes, hu.nodes, Array.append_assoc]
    simp

/-! ## Storing what two runs have computed -/

/-- A store into a plain name that names a member which may not be used declares a variable, with a report. -/
theorem run_assignTo_hidden {ident : Identifier} {q : SymbolRef} (hplain : ident.dims = [])
    (hthis : ident.isThis = false) (hown : f.IsOwn) (hs : f.Proceeds s)
    (hhidden : (sightFrom f s.session).resolve ident.name = .inaccessible q) (type : Ty) :
    ∃ r x t, assignTo (.identifier ident) type f s = .ok [.ofName ident.name (some r) x.classScope] t ∧
      Entered f { name := ident.name, type := declaredType type } r x
        { s with session := s.session.report (s.session.diagnostic .propertyInaccessible
          ("Property '" ++ ident.name ++ "' is inaccessible.") ident.span) } t := by
  let u : State := { s with session := s.session.report (s.session.diagnostic .propertyInaccessible
    ("Property '" ++ ident.name ++ "' is inaccessible.") ident.span) }
  have hu : f.Proceeds u := ⟨hs.looksOut.congr ⟨rfl, rfl, rfl, rfl, rfl, rfl⟩, hs.isWatching, hs.isOpen⟩
  obtain ⟨r, x, t, hallocate, hentered⟩ :=
    run_allocate_entered hown hu.looksOut { name := ident.name, type := declaredType type }
  have htarget : targetSymbol ident type f s = .ok r t := by
    simp only [targetSymbol, run_bind, hs.looksOut.run_sight, hhidden, run_report]
    exact hallocate
  obtain ⟨v, hrun, htv⟩ := run_assignTo_target hplain hthis htarget (hentered.proceeds hu) hentered.symbol
  exact ⟨r, x, v, hrun, hentered.unmoved htv⟩

/-- Two runs have reported, registered and called the same. -/
structure Even (block : Nat) (s t : State) : Prop where
  diagnostics : t.session.diagnostics = s.session.diagnostics
  lateVariables : t.session.lateVariables = s.session.lateVariables
  lateFunctions : t.session.lateFunctions = s.session.lateFunctions
  callees : t.session.callees block = s.session.callees block
  lastCallee : t.lastCallee = s.lastCallee

theorem Abreast.even (h : Abreast anchor f s s') : Even f.block s s' :=
  ⟨h.level.diagnostics, h.level.lateVariables, h.level.lateFunctions, h.callees, h.lastCallee⟩

theorem Even.congr {block : Nat} (h : Even block s s') (hst : Reticent s t) (hst' : Reticent s' t')
    (hcallees : t.session.callees block = s.session.callees block)
    (hcallees' : t'.session.callees block = s'.session.callees block) : Even block t t' where
  diagnostics := hst'.diagnostics.trans (h.diagnostics.trans hst.diagnostics.symm)
  lateVariables := hst'.lateVariables.trans (h.lateVariables.trans hst.lateVariables.symm)
  lateFunctions := hst'.lateFunctions.trans (h.lateFunctions.trans hst.lateFunctions.symm)
  callees := hcallees'.trans (h.callees.trans hcallees.symm)
  lastCallee := hst'.lastCallee.trans (h.lastCallee.trans hst.lastCallee.symm)

theorem refined_congr {s t : State} (hprocedure : t.session.procedure? = s.session.procedure?)
    (hlast : t.lastCallee = s.lastCallee) : t.refined = s.refined := by
  funext type
  unfold State.refined
  rw [hprocedure, hlast]

theorem Unmoved.refined {block : Nat} (h : Unmoved block s t) : t.refined = s.refined :=
  refined_congr (funext h.constant.names.procedure?_eq) h.reticent.lastCallee

theorem Entered.refined {e : Declaration} {r : SymbolRef} {x : Symbol} (h : Entered f e r x s t) :
    t.refined = s.refined := by
  obtain ⟨counters, hnames⟩ := h.names
  exact refined_congr (funext hnames.procedure?_eq) h.reticent.lastCallee

/-- Two runs have stored values of the given types into a name. -/
structure Stored (f : Frame) (name : String) (type type' : Ty) (s s' t t' : State) (path path' : Path) : Prop where
  even : Even f.block t t'
  proceeds : f.Proceeds t
  proceeds' : f.Proceeds t'
  tended : Tended s t
  tended' : Tended s' t'
  refined : t.refined = s.refined
  refined' : t'.refined = s'.refined
  found : ∀ r, (sightFrom f s.session).resolve name = .found r → path' = path
  declared : (sightFrom f s.session).resolve name = .unbound →
    ∃ r x r' x', (sightFrom f t.session).Shows name r x ∧ (sightFrom f t'.session).Shows name r' x' ∧
      x.type = declaredType type ∧ x'.type = declaredType type'

section
variable {y : Identifier} {path : Path} (hs : Abreast none f s s') (hf : f.HasStatements) (hplain : y.dims = [])
  (hname : IsPlainName y.name) (type type' : Ty)
include hs hf hplain hname

/-- Runs that are abreast store alike into a plain name. -/
theorem Abreast.store (hrun : assignTo (.identifier y) type f s = .ok path t) :
    ∃ path' t', assignTo (.identifier y) type' f s' = .ok path' t' ∧
      Stored f y.name type type' s s' t t' path path' := by
  have hs' : f.Proceeds s' := hs.right.site rfl
  have hframe : ({ f with anchor := none } : Frame) = f := by
    cases f
    cases hf.anchor
    rfl
  have hresolve : (sightFrom f s'.session).resolve y.name = (sightFrom f s.session).resolve y.name := by
    have hbeside := Sight.resolve_beside hs.level.beside f none hname
    rwa [hframe] at hbeside
  have hthis : y.isThis = false := by
    cases hy : y.isThis with
    | false => rfl
    | true =>
      change (if y.isThis then assignTo.invalid y.span else storeIdentifier y type) f s = _ at hrun
      rw [hy] at hrun
      cases hrun
  cases hr : (sightFrom f s.session).resolve y.name with
  | found r =>
    obtain ⟨z, hz⟩ : ∃ z, s.session.symbol? r = some z := by
      change (if y.isThis then assignTo.invalid y.span else storeIdentifier y type) f s = _ at hrun
      rw [hthis] at hrun
      obtain ⟨r', u, z, htarget, hz, -⟩ := storeIdentifier_ok hplain hrun
      simp only [targetSymbol, run_bind, hs.proceeds.looksOut.run_sight, hr, run_pure] at htarget
      cases htarget
      exact ⟨z, hz⟩
    obtain ⟨u, hwhole, hsu⟩ := run_assignTo_found hplain hthis hs.proceeds hr hz type
    cases hrun.symm.trans hwhole
    obtain ⟨t', hsplit, hst'⟩ :=
      run_assignTo_found hplain hthis hs' (hresolve.trans hr) (hs.level.beside.symbol? hz) type'
    exact ⟨_, t', hsplit, hs.even.congr hsu.reticent hst'.reticent hsu.callees hst'.callees,
      hs.proceeds.congr hsu.constant, hs'.congr hst'.constant, hsu.constant.tended, hst'.constant.tended,
      hsu.refined, hst'.refined, fun _ _ => rfl, fun h => by simp [hr] at h⟩
  | unbound =>
    obtain ⟨r, x, u, hwhole, hentered⟩ := run_assignTo_unbound hplain hthis hf.own hs.proceeds hr type
    cases hrun.symm.trans hwhole
    obtain ⟨r', x', t', hsplit, hentered'⟩ :=
      run_assignTo_unbound hplain hthis hf.own hs' (hresolve.trans hr) type'
    refine ⟨_, t', hsplit, hs.even.congr hentered.reticent hentered'.reticent hentered.callees hentered'.callees,
      hentered.proceeds hs.proceeds, hentered'.proceeds hs', hentered.tended, hentered'.tended, hentered.refined,
      hentered'.refined, fun r h => by simp [hr] at h, fun _ => ⟨r, x, r', x', ?_, ?_, hentered.type, hentered'.type⟩⟩
    · exact ⟨hentered.resolve_self hf.own hf.notVoid hs.proceeds.looksOut rfl hr, hentered.symbol⟩
    · exact ⟨hentered'.resolve_self hf.own hf.notVoid hs'.looksOut rfl (hresolve.trans hr), hentered'.symbol⟩
  | inaccessible q =>
    obtain ⟨r, x, u, hwhole, hentered⟩ := run_assignTo_hidden hplain hthis hf.own hs.proceeds hr type
    cases hrun.symm.trans hwhole
    obtain ⟨r', x', t', hsplit, hentered'⟩ :=
      run_assignTo_hidden hplain hthis hf.own hs' (hresolve.trans hr) type'
    -- Both runs report the member.
    have hinStep : InStep none (fun _ _ => True) _ _ := InStep.report .propertyInaccessible
      ("Property '" ++ y.name ++ "' is inaccessible.") y.span
    obtain ⟨⟨⟩, v', hreport, -, hreported, hconstant, hconstant'⟩ := hinStep f s s' () _ hs rfl
    cases hreport
    have hv := hs.proceeds.congr hconstant
    have hv' := hs'.congr hconstant'
    exact ⟨_, t', hsplit,
      hreported.even.congr hentered.reticent hentered'.reticent hentered.callees hentered'.callees,
      hentered.proceeds hv, hentered'.proceeds hv', hconstant.tended.trans hentered.tended,
      hconstant'.tended.trans hentered'.tended, hentered.refined, hentered'.refined,
      fun r h => by simp [hr] at h, fun h => by simp [hr] at h⟩

end

/-! ## The target of a split chain -/

/-- Looking ahead into a name that stands for something does nothing. -/
theorem Idle.probe_name {name : String} (hlooks : f.LooksOut s.session)
    (h : (sightFrom f s.session).Settles name) (span : Span) : Idle f s (Lowering.probe (.identifier (.plain name span))) := by
  refine Idle.bind (Idle.bind Idle.pure ?_) Idle.pure
  exact Idle.ite (Idle.declareForward hlooks h) Idle.pure

/-- The last statement of a split chain reads the variable that was made up last, and stores its value as the
whole run stores the value of the chain. -/
theorem Reaches.finish {ns : List GraphNode} {k : Nat} {r : SymbolRef} {z : Symbol} {y : Identifier} {path : Path}
    {type : Ty} (h : Reaches f s' u w ns (temporaryName k) r z) (hf : f.HasStatements) (hplain : y.dims = [])
    (hname : IsPlainName y.name) (hvalue : Unmoved f.block u v)
    (hrun : assignTo (.identifier y) type { f with isTracked := true } v = .ok path x) (span : Span) :
    ∃ n t w' x' path', graphStatement (.identifier y) (.identifier (.plain (temporaryName k) span)) span false false
        f w = .ok n t ∧
      Stored { f with isTracked := true } y.name type (v.refined z.type) v w' x x' path path' ∧
      Unmoved f.block x' t ∧ t.session.nodes = w.session.nodes ∧
      t.held.map GraphNode.bare = w.held.map GraphNode.bare ∧ n.isSealed = false ∧ n.block = f.block ∧
      [.ofName (temporaryName k) (some r) z.classScope] ∈ n.inputs ∧ n.updated = some path' := by
  have hw : f.Proceeds w := h.abreast.right.site rfl
  let g : Frame := { f with isTracked := true }
  let a : State := { w with session := { w.session with nextUid := w.session.nextUid + 1 } }
  let b : State := { a with node := openNode f w false }
  have hnames : w.session.SameNames a.session := ⟨rfl, rfl, rfl, rfl, rfl, rfl⟩
  have hshown := h.shown.congr (b := b.session) hnames
  have hahead : Idle f a (Lowering.probe (.identifier (.plain (temporaryName k) span))) := by
    refine Idle.probe_name (hw.looksOut.congr hnames) (fun _ => .inl ?_) span
    rw [hshown.found]
    nofun
  have hbegun : Abreast none g v b := by
    have habreast : Abreast none f u { w with node := w.node } := h.abreast
    have hopened : Abreast none f u b := habreast.begin rfl _ _
    exact (hopened.unmoved hvalue (.refl _ b)).site rfl rfl
  have hb : g.Proceeds b := hbegun.right.site rfl
  let e : Cursor :=
    { type := z.type, depth := 1, path := [.ofName (temporaryName k) (some r) z.classScope], isSingle := true }
  obtain ⟨c, w₁, w', hchain, ⟨rfl, hw₁⟩, hw₁', hinput⟩ := run_lowerChain (f := g) expression
    (Identifier.plain (temporaryName k) span).span hb rfl (List.cons_ne_nil _ _) rfl
    (P := fun c t => c = e ∧ Unmoved f.block b t) fun t ht => by
      have hshown' := hshown.congr ht.constant.names
      obtain ⟨t', hrun', htt'⟩ := run_lowerTemporary expression span (hb.congr ht.constant) hf.anchor
        (k := k) (r := r) (x := z) ⟨hshown'.found, hshown'.symbol⟩ true
      exact ⟨_, t', hrun', hb.congr (ht.trans htt').constant, List.cons_ne_nil _ _, rfl, ht.trans htt'⟩
  have hbw := hw₁.trans hw₁'
  have hstart : Abreast none g v w' := hbegun.unmoved (.refl _ v) hbw
  obtain ⟨path', x', hsplit, hstored⟩ := hstart.store ⟨hf.own, hf.anchor, hf.notVoid⟩ hplain hname type
    (w'.refined z.type) hrun
  have hexpression : expression (.identifier (.plain (temporaryName k) span)) g b = .ok z.type w' := by
    rw [expression_eq]
    exact hchain
  have hlast : if false then recordSplitChain g w' = .ok () w' else w' = w' := rfl
  obtain ⟨startPc, endPc, t, hstatement, ht⟩ := run_graphStatement span (s := w) hw.looksOut hahead hexpression
    ⟨(hb.congr hbw.constant).looksOut.blocks, (hb.congr hbw.constant).looksOut.body⟩ hlast hsplit
    (hstored.proceeds'.site rfl)
  have hrefined : w'.refined z.type = v.refined z.type := hstart.refined z.type
  refine ⟨_, t, w', x', path', hstatement, hrefined ▸ hstored, ht, ?_, ?_, ?_, ?_, ?_, rfl⟩
  · exact ht.constant.nodes.trans (hstored.tended'.nodes.trans hbw.constant.nodes)
  · exact ht.constant.held.trans (hstored.tended'.held.trans hbw.constant.held)
  · exact hstored.tended'.isSealed.trans hbw.constant.isSealed
  · exact hstored.tended'.block.trans hbw.constant.block
  · exact hstored.tended'.inputs hinput

/-! ## The assignment -/

/-- A chain that is resolved statically has one segment of its path for each of its segments. -/
theorem Sight.trace?_path {v : Sight} (hc : c.IsStatic) (h : v.trace? c segments = some d) :
    d.IsStatic ∧ ∃ p, d.path = c.path ++ p ∧ p.length = segments.length := by
  induction segments generalizing c with
  | nil =>
    cases h
    exact ⟨hc, [], (List.append_nil _).symm, rfl⟩
  | cons n rest ih =>
    rw [trace?_cons] at h
    obtain ⟨e, hstep, h⟩ := Option.bind_eq_some_iff.mp h
    have hmoved := step?_moved hc hstep
    obtain ⟨y, hy⟩ := hmoved.path
    obtain ⟨hd, p, hp, hlength⟩ := ih hmoved.isStatic h
    exact ⟨hd, y :: p, by rw [hp, hy, List.append_assoc]; rfl, by simp [hlength]⟩

/-- What nodes read and write tells whether they read one path behind the other. -/
theorem Threads.congr {pre : Path} {ps : List Path} {ns ms : List GraphNode} {last : Segment}
    (h : Threads pre ps ns last)
    (hsame : ms.map (fun n => (n.inputs, n.updated)) = ns.map fun n => (n.inputs, n.updated)) :
    Threads pre ps ms last := by
  induction h generalizing ms with
  | one hinput hupdated =>
    obtain ⟨m, rfl, hm⟩ := List.map_eq_singleton_iff.mp hsame
    obtain ⟨hinputs, hwrites⟩ := Prod.mk.inj hm
    exact .one (hinputs ▸ hinput) (hwrites.trans hupdated)
  | more hinput hupdated _ ih =>
    obtain ⟨m, ms, rfl, hm, hrest⟩ := List.map_eq_cons_iff.mp hsame
    obtain ⟨hinputs, hwrites⟩ := Prod.mk.inj hm
    exact .more (hinputs ▸ hinput) (hwrites.trans hupdated) (ih hrest)

theorem inputs_bare (n : GraphNode) : n.bare.inputs = n.inputs := by
  change (n.inputs).map Path.bare = n.inputs
  unfold GraphNode.inputs
  rw [List.map_map]
  congr 1
  funext p
  change (p.map _).map _ = p.map _
  rw [List.map_map]
  rfl

theorem refined_refined (s : State) (type : Ty) : s.refined (s.refined type) = s.refined type := by
  cases htype : type.is .var with
  | false =>
    have hsame : s.refined type = type := by
      unfold State.refined
      rw [htype, if_neg Bool.false_ne_true]
    rw [hsame, hsame]
  | true =>
    cases hlast : s.lastCallee.bind s.session.procedure? with
    | none =>
      have hsame : s.refined type = type := by
        unfold State.refined
        rw [htype, if_pos rfl, hlast]
      rw [hsame, hsame]
    | some p =>
      have hreturns : s.refined type = p.returns := by
        unfold State.refined
        rw [htype, if_pos rfl, hlast]
      rw [hreturns]
      unfold State.refined
      rw [hlast]
      exact ite_self _

/-- A made-up variable passes the type of the value on, unless it has none to be declared with and the last
called procedure has one. -/
theorem declaredType_again (s : State) (type : Ty) :
    declaredType (s.refined (declaredType (s.refined type))) = declaredType (s.refined type) ↔
      (declaredType (s.refined type) = .var → declaredType (s.refined .var) = .var) := by
  by_cases hvar : declaredType (s.refined type) = .var
  · rw [hvar]
    simp
  · have hsame : declaredType (s.refined type) = s.refined type := by
      unfold declaredType at hvar ⊢
      split
      · next h => exact absurd (if_pos h) hvar
      · rfl
    rw [hsame, refined_refined]
    rw [hsame] at hvar
    simp [hsame, hvar]

/-- The assignment of a chain to a name leads from `s` to `t` if the chain is lowered as a whole, and to `t'` if
it is split. Both runs report, register and call the same. Where the node of the whole run reads the chain, the
nodes of the other read its segments one after the other. -/
structure SplitsAlike (f : Frame) (name : String) (segments : List Node) (d : Cursor) (s t t' : State) : Prop where
  diagnostics : t'.session.diagnostics = t.session.diagnostics
  lateVariables : t'.session.lateVariables = t.session.lateVariables
  lateFunctions : t'.session.lateFunctions = t.session.lateFunctions
  callees : t'.session.callees f.block = t.session.callees f.block
  nodes : ∃ n ns m last, t.session.nodes f.block = s.session.nodes f.block ++ #[n] ∧
    t'.session.nodes f.block = s.session.nodes f.block ++ (ns ++ [m]).toArray ∧ d.path.bare ∈ n.inputs ∧
    Threads [] (factorPaths (splitAnchor? (sightFrom f s.session) segments).isSome d.path.bare) ns last ∧
    [last] ∈ m.inputs ∧ ∀ r, (sightFrom f s.session).resolve name = .found r → m.updated = n.updated
  declared : (sightFrom f s.session).resolve name = .unbound →
    ∃ r x r' x', (sightFrom f t.session).Shows name r x ∧ (sightFrom f t'.session).Shows name r' x' ∧
      x.type = declaredType (t.refined d.type) ∧
      (x'.type = x.type ↔ (x.type = .var → declaredType (t.refined .var) = .var))

/-- Splitting keeps how a chain is resolved. -/
theorem lowerUpdate_split {y : Identifier} {left right : Node} {op : Operator} {span' : Span} (hf : f.HasStatements)
    (hlooks : f.LooksOut s.session) (hwatching : s.session.isWatching = false) (hindexed : s.session.Indexed)
    (hspare : (sightFrom f s.session).HasSpare) (hwhole : s.session.options.fullSsa = false)
    (hsegments : (Node.member left right op false span').segments = .ok segments)
    (hsplits : (sightFrom f s.session).Splits segments d) (hplain : y.dims = []) (hname : IsPlainName y.name)
    (hrun : lowerUpdate (.identifier y) (.member left right op false span') span f s = .ok () t) :
    ∃ t', lowerUpdate (.identifier y) (.member left right op false span') span f
        { s with session := s.session.splitting } = .ok () t' ∧
      SplitsAlike f y.name segments d s t t' := by
  have hsingle : (segments.length == 1) = false := by
    have := hsplits.length
    simp
    omega
  have hunwrap : segments.map Node.unwrap = segments :=
    (List.map_congr_left fun n hn => Node.unwrap_of_isSegment (hsplits.each n hn).isSegment).trans (List.map_id _)
  let g : Frame := { f with isTracked := true }
  let a : State := { s with
    session := { s.session with nextUid := s.session.nextUid + 1 }, lastCallee := none }
  let b : State := { a with node := openNode f { s with lastCallee := none } false }
  have hopened : s.session.SameNames b.session := ⟨rfl, rfl, rfl, rfl, rfl, rfl⟩
  have hb : g.Proceeds b := ⟨⟨(hlooks.congr hopened).blocks, (hlooks.congr hopened).body⟩, hwatching, rfl⟩
  -- The whole run, read backwards.
  obtain ⟨⟨⟩, s₁, hforget, hrun⟩ := bind_eq_ok.mp hrun
  cases hforget
  obtain ⟨_, s₂, hsession, hrun⟩ := bind_eq_ok.mp hrun
  cases hsession
  have hnot : isSplit s.session.options (.member left right op false span') = false := by
    simp [isSplit, hwhole]
  rw [hnot, if_neg Bool.false_ne_true] at hrun
  obtain ⟨n, u, hnode, hcommit⟩ := bind_eq_ok.mp hrun
  obtain ⟨v, type, w, w', path, x, _, _, hprobe, hvalue, -, hsame, hstore, -, -⟩ := graphStatement_ok hnode
  obtain rfl := hsame rfl
  have hframe : ({ f with anchor := none } : Frame) = f := by
    cases f
    cases hf.anchor
    rfl
  have hahead : Idle f a (Lowering.probe (.member left right op false span')) := by
    have hlooks' : f.LooksOut a.session := hlooks.congr ⟨rfl, rfl, rfl, rfl, rfl, rfl⟩
    refine Idle.probe hlooks' ⟨fun name hname => ?_, _, f, a, (), v, hprobe⟩
    cases hname with
    | part hm hname =>
      unfold Node.partsAhead at hm
      dsimp only at hm
      rw [hsegments] at hm
      obtain ⟨k, hk, hm⟩ := List.mem_flatMap.mp hm
      have hoff := hsplits.each k hk
      rw [Node.unwrap_of_isSegment hoff.isSegment] at hm
      have hbeside : s.session.Beside a.session :=
        (Session.Beside.refl hindexed).congr (.refl _) ⟨rfl, rfl, rfl, rfl, rfl, rfl⟩
      have hnothing := (hoff.ahead _ hm).beside hbeside (hoff.looksUpPlain hm) none
      rw [hframe] at hnothing
      exact hnothing.settles name hname
  cases hahead.symm.trans hprobe
  have hchain : lowerChain expression segments span' g b = .ok type w' := by
    have hvalue' : expression (.member left right op false span') g b = .ok type w' := hvalue
    rw [expression_eq] at hvalue'
    change (chainSegments _ >>= fun l => lowerChain expression l span') g b = _ at hvalue'
    rwa [chainSegments_ok hsegments, pure_bind] at hvalue'
  obtain ⟨u₁, c, w₁, hu₁, hlowered, htype, hrest⟩ := lowerChain_unmoved hb rfl hunwrap hchain
  rw [hsingle] at hlowered
  -- The split run up to the last statement.
  let s' : State := { session := s.session.splitting, node := s.node }
  have hlevel : b.session.Level s'.session :=
    ⟨(Session.Beside.refl hindexed).congr hopened ⟨rfl, rfl, rfl, rfl, rfl, rfl⟩, rfl, rfl, rfl, rfl, rfl⟩
  have hbegun : Abreast none g b { s' with node := b.node } :=
    ⟨hlevel, rfl, rfl, hb, rfl, hf.anchor, nofun⟩
  have hstart : Abreast none g u₁ { s' with node := b.node } := hbegun.unmoved hu₁ (.refl _ _)
  have hsplitting : s.session.SameNames s'.session := ⟨rfl, rfl, rfl, rfl, rfl, rfl⟩
  have hspare' : (sightFrom f s'.session).HasSpare := hspare.congr hsplitting (Nat.le_refl _)
  obtain ⟨hend, k, ns, r, z, w, hsplit, hreaches, hz, hthreads⟩ :=
    run_splitChain (.identifier y) span hf (hopened.trans hu₁.constant.names) hsplitting
      (hstart.site rfl rfl) hspare' hsplits hlowered
  subst hend
  obtain ⟨hstatic, p, hp, hlength⟩ := Sight.trace?_path (Cursor.isStatic_start false) hsplits.trace
  have hpath : c.path ≠ [] := by
    intro hnil
    have hnone : p = [] := (List.append_eq_nil_iff.mp (hp.symm.trans hnil)).2
    have := hsplits.length
    simp [hnone] at hlength
    omega
  rw [hstatic.isStopped, if_neg Bool.false_ne_true] at htype
  obtain ⟨hvalued, hinput⟩ := hrest (hreaches.abreast.proceeds.site rfl) hpath
  -- Both runs store the value.
  obtain ⟨m, t₁, w₂, x', path', hlast, hstored, ht₁, hnodes, hheld, hopen, hblock, hread, hwrites⟩ :=
    hreaches.finish hf hplain hname hvalued hstore span
  -- The node of the whole run becomes part of the block.
  have hwhole₁ : f.Proceeds w₁ := hreaches.abreast.proceeds
  have hnone : if false then recordSplitChain g w' = .ok () w' else w' = w' := rfl
  obtain ⟨startPc, endPc, u', hwholeRun, hu'⟩ := run_graphStatement (f := f) (s := { s with lastCallee := none }) span hlooks
    hahead hvalue (hwhole₁.congr hvalued.constant).looksOut hnone hstore (hstored.proceeds.site rfl)
  cases hnode.symm.trans hwholeRun
  have hblock₁ := block_graphStatement hnode
  have hx : f.Proceeds x := hstored.proceeds.site rfl
  have hopen₁ : ({ x.node with startPc, endPc, updated := some path } : GraphNode).isSealed = false := hx.isOpen
  obtain ⟨t₀, hcommit', ht⟩ := run_commit_open (f := f) hopen₁ hblock₁
    (hx.congr hu'.constant).looksOut.block?_isSome
  cases hcommit.symm.trans hcommit'
  -- The nodes of the split run become part of the block.
  have hbares : t₁.held.map GraphNode.bare = ns.map GraphNode.bare := hheld.trans hreaches.held
  have hheldOpen : ∀ n ∈ t₁.held ++ [m], n.isSealed = false ∧ n.block = f.block := by
    intro n hn
    obtain hn | hn := List.mem_append.mp hn
    · obtain ⟨l, hl, hbare⟩ := List.mem_map.mp (hbares ▸ List.mem_map_of_mem hn)
      obtain ⟨hopen, hblock⟩ := hreaches.isOpen l hl
      exact ⟨(congrArg GraphNode.isSealed hbare).symm.trans hopen, (congrArg GraphNode.block hbare).symm.trans hblock⟩
    · rw [List.mem_singleton.mp hn]
      exact ⟨hopen, hblock⟩
  have hx' : f.Proceeds x' := hstored.proceeds'.site rfl
  let t₂ : State := { t₁ with held := [], pointers := [] }
  have hblock₂ : (t₂.session.block? f.block).isSome := (hx'.congr ht₁.constant).looksOut.block?_isSome
  obtain ⟨t', hforM, ht'⟩ := run_forM_commit (f := f) (s := t₂) hheldOpen hblock₂
  have hsplitRun : splitChain (.identifier y) segments span f s' = .ok () { t₁ with held := t₁.held ++ [m] } :=
    hsplit.trans (bind_eq_ok.mpr ⟨m, t₁, hlast, rfl⟩)
  have hfull : isSplit s.session.splitting.options (.member left right op false span') = true := rfl
  refine ⟨t', ?_, ?_⟩
  · refine bind_eq_ok.mpr ⟨(), { s with session := s.session.splitting, lastCallee := none }, rfl,
      bind_eq_ok.mpr ⟨_, _, rfl, ?_⟩⟩
    rw [if_pos hfull]
    refine bind_eq_ok.mpr ⟨segments, _, by rw [chainSegments_ok hsegments]; rfl, bind_eq_ok.mpr ⟨(), s', rfl, ?_⟩⟩
    exact bind_eq_ok.mpr ⟨(), _, hsplitRun, bind_eq_ok.mpr ⟨_, _, rfl, bind_eq_ok.mpr ⟨(), t₂, rfl, hforM⟩⟩⟩
  have heven : Even f.block t t' := by
    have hlastEven : Even f.block u t₁ :=
      Even.congr hstored.even hu'.reticent ht₁.reticent hu'.callees ht₁.callees
    have hforgotten : Even f.block u t₂ := ⟨hlastEven.diagnostics, hlastEven.lateVariables,
      hlastEven.lateFunctions, hlastEven.callees, hlastEven.lastCallee⟩
    exact hforgotten.congr ht.reticent ht'.reticent ht.callees ht'.callees
  have hconstant : Constant u₁ w₁ := by
    obtain ⟨-, -, -, -, -, hconstant, -⟩ := InStep.lowerSegments InStep.expression (.refl (.start false))
      hsplits.plain nofun g u₁ _ c w₁ hstart hlowered
    exact hconstant
  have hnames : s.session.SameNames w'.session :=
    hopened.trans (hu₁.constant.names.trans (hconstant.names.trans hvalued.constant.names))
  have hrefined : t.refined = w'.refined :=
    (refined_congr (funext ht.names.procedure?_eq) ht.reticent.lastCallee).trans (hu'.refined.trans hstored.refined)
  have hresolve : (sightFrom g w'.session).resolve y.name = (sightFrom f s.session).resolve y.name :=
    Sight.resolve_sightFrom hnames f y.name
  refine ⟨heven.diagnostics, heven.lateVariables, heven.lateFunctions, heven.callees, ?_, fun hfree => ?_⟩
  · have hbefore : u.session.nodes = s.session.nodes :=
      hu'.constant.nodes.trans (hstored.tended.nodes.trans (hvalued.constant.nodes.trans
        (hconstant.nodes.trans hu₁.constant.nodes)))
    have hbefore' : t₂.session.nodes = s.session.nodes := hnodes.trans hreaches.nodes
    let n : GraphNode := { x.node with startPc, endPc, updated := some path, isSealed := true }
    refine ⟨n, t₁.held.map fun n => { n with isSealed := true }, { m with isSealed := true }, _, ?_, ?_, ?_,
      hthreads.congr ?_, hread, fun r hr => ?_⟩
    · exact ht.nodes.trans (by rw [hbefore]; rfl)
    · rw [ht'.nodes, hbefore', List.map_append]
      rfl
    · exact hstored.tended.inputs hinput
    · have hreads := congrArg (List.map fun n : GraphNode => (n.inputs, n.updated)) hbares
      simp only [List.map_map, Function.comp_def, inputs_bare] at hreads ⊢
      exact hreads
    · exact hwrites.trans (congrArg some (hstored.found r (hresolve.trans hr)))
  · obtain ⟨r, e, r', e', hshows, hshows', he, he'⟩ := hstored.declared (hresolve.trans hfree)
    have hshown := hshows.congr (hu'.constant.names.trans ht.names)
    have hshown' := hshows'.congr (ht₁.constant.names.trans ht'.names)
    rw [htype, ← hrefined] at he
    rw [hz, ← hvalued.refined, ← hrefined] at he'
    refine ⟨r, e, r', e', ⟨hshown.found, hshown.symbol⟩, ⟨hshown'.found, hshown'.symbol⟩, he, ?_⟩
    rw [he, he']
    exact declaredType_again t c.type

/-- A class `Q` with a member `y` of a type, a class `P` with a method `f` that returns an object of `Q`, and an
object `p` of `P`. -/
def chainClasses (type : String) : List Node :=
  let y : Variable := ⟨"y", ⟨type, 0⟩, none, false, .isPublic, .stack, .nil⟩
  let f : Function := { generated "f" [] [] with returns := ⟨"Q", 0⟩ }
  let object : Node := .call ⟨"P", [], [], [], .nil⟩
  [.classDecl ⟨"Q", none, [y], [], [], .nil⟩, .classDecl ⟨"P", none, [], [f], [], .nil⟩,
    .assign (.identifier (.plain "p" .nil)) object .nil]

/-- The chain `p.f().y`. -/
def chainSample : Node :=
  .member (.member (.identifier (.plain "p" .nil)) (.call ⟨"f", [], [], [], .nil⟩) .dot false .nil)
    (.identifier (.plain "y" .nil)) .dot false .nil

theorem chainClasses_plain (type : String) : ∀ n ∈ chainClasses type, n.DeclaresOnly IsPlainName := by
  have hempty {n : Node} (hown : n.ownNames = []) (hparts : n.parts = []) : n.DeclaresOnly IsPlainName := by
    refine Node.declaresOnly_iff.mpr ⟨fun name hname => ?_, fun m hm => ?_⟩
    · rw [hown] at hname
      cases hname
    · rw [hparts] at hm
      cases hm
  have hplain (name : String) (h : Text.isTemporaryName name = false) : IsPlainName name := h
  intro n hn
  simp only [chainClasses, List.mem_cons, List.not_mem_nil, or_false] at hn
  obtain rfl | rfl | rfl := hn
  · refine Node.declaresOnly_iff.mpr ⟨fun name hname => ?_, fun m hm => absurd hm List.not_mem_nil⟩
    obtain rfl := List.mem_singleton.mp hname
    exact hplain "y" (by decide)
  · exact hempty rfl rfl
  · exact .assign (hplain "p" (by decide)) (hempty rfl rfl)

/-- The session in which the classes and the object are declared. -/
@[irreducible] def chainSession (type : String) : Session :=
  (Session.compile (.new {}) (chainClasses type) .associative).2

theorem used_chainSession (type : String) : (chainSession type).Used := by
  unfold chainSession
  exact .compile (chainClasses type) .associative (.new {})

theorem hasSpare_chainSession (type : String) : (chainSession type).HasSpare := by
  unfold chainSession
  have hserved (s : Session) : (s.serveAll [.compile (chainClasses type) .associative]).2 =
      (s.compile (chainClasses type) .associative).2 := rfl
  rw [← hserved]
  exact Session.serveAll_hasSpare {} (List.forall_mem_singleton.mpr (chainClasses_plain type))

/-- A statement on the top level finds what it needs around it. -/
theorem chainSession_stands : ((chainSession "int").enclosing? 0).isSome ∧
    (chainSession "int").isWatching = false ∧ (chainSession "int").options.fullSsa = false := by
  decide +kernel

/-- A member `y` of type `int` is read through a method, as a whole and split. -/
theorem int_member_split :
    let s : State := { session := chainSession "int" }
    let f : Frame := { block := 0, scope := .global, dialect := .associative }
    let t := ending (lowerUpdate (.identifier (.plain "x" .nil)) chainSample .nil f s)
    let segments := [Node.identifier (.plain "p" .nil), .call ⟨"f", [], [], [], .nil⟩, .identifier (.plain "y" .nil)]
    ∃ d t', (sightFrom f s.session).Splits segments d ∧
      lowerUpdate (.identifier (.plain "x" .nil)) chainSample .nil f { s with session := s.session.splitting } =
        .ok () t' ∧ SplitsAlike f "x" segments d s t t' := by
  intro s f t segments
  have hs : s.session.Used := used_chainSession "int"
  have hspare : s.session.HasSpare := hasSpare_chainSession "int"
  have hrun := eq_ok_ending (m := lowerUpdate (.identifier (.plain "x" .nil)) chainSample .nil) (f := f) (s := s)
    (by decide +kernel)
  change lowerUpdate _ _ _ f s = .ok () t at hrun
  have htrace : ((sightFrom f s.session).trace? (.start false) segments).isSome := by decide +kernel
  obtain ⟨hblocks, hwatching, hwhole⟩ : (s.session.enclosing? 0).isSome ∧ s.session.isWatching = false ∧
      s.session.options.fullSsa = false := chainSession_stands
  have hlooks : f.LooksOut s.session := ⟨hblocks, nofun⟩
  clear_value s t
  obtain ⟨d, hd⟩ := Option.isSome_iff_exists.mp htrace
  -- The unit assigns nothing later, so that there is nothing to declare ahead.
  have hnothing {n : Node} (hfinishes : Finishes (probeWithin 2 n)) : (sightFrom f s.session).NothingAhead n :=
    ⟨fun name _ hforward => absurd hforward List.not_mem_nil, 2, hfinishes⟩
  have hplain (name : String) (h : Text.isTemporaryName name = false) : IsPlainName name := h
  have hsplits : (sightFrom f s.session).Splits segments d := by
    refine ⟨by decide, fun n hn => ?_, fun name hname => ?_, fun n hn => ?_, hd⟩
    · simp only [segments, List.mem_cons, List.not_mem_nil, or_false] at hn
      obtain rfl | rfl | rfl := hn
      · exact ⟨rfl, fun name hname => absurd hname List.not_mem_nil, fun a ha => absurd ha List.not_mem_nil⟩
      · exact ⟨rfl, fun name hname => absurd hname List.not_mem_nil, fun a ha => absurd ha List.not_mem_nil⟩
      · exact ⟨rfl, fun name hname => absurd hname List.not_mem_nil, fun a ha => absurd ha List.not_mem_nil⟩
    · rw [List.mem_singleton.mp hname]
      exact hplain "p" (by decide)
    · obtain rfl := Option.some.inj hn
      exact hnothing ⟨f, s, (), s, rfl⟩
  obtain ⟨t', hsplit, halike⟩ := lowerUpdate_split (f := f) (y := .plain "x" .nil) ⟨rfl, rfl, by decide⟩ hlooks
    hwatching hs.indexed (hspare.sight f) hwhole rfl hsplits rfl (hplain "x" (by decide)) hrun
  exact ⟨d, t', hsplits, hsplit, halike⟩

/-- The member `y` has the type of null. If the chain is lowered as a whole, `x` is a variable of any type; if it is
split, the type of `x` is what the method returns. -/
theorem null_member_split :
    let unit := chainClasses "null" ++ [.assign (.identifier (.plain "x" .nil)) chainSample .nil]
    let typeOfX (s : Session) : Option Ty :=
      (s.block? 0).bind fun b => (b.symbols.symbols.find? fun x => x.name == "x").map Symbol.type
    let s := (Session.compile (.new {}) unit .associative).2
    let t := (Session.compile (.new { fullSsa := true }) unit .associative).2
    s.diagnostics.size = 0 ∧ t.diagnostics.size = 0 ∧ s.lateVariables.size = 0 ∧ s.lateFunctions.size = 0 ∧
      typeOfX s = some .var ∧ typeOfX t = some (.scalar 12) := by
  decide +kernel

end Lowering

end Diglot
