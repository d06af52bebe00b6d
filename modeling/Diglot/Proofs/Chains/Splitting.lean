import Diglot.Proofs.Chains.Temporary
import Diglot.Proofs.Paths.Matching

/-! # Splitting a chain that is resolved statically

A chain is lowered in two runs, as a whole and split. Before each factor the two runs are abreast, and the split
one has the value so far in a variable of the type that the cursor of the other one shows. The statement of the
factor keeps it that way (`run_factor`), and so does the whole chain (`run_splitChain`).
-/

set_option autoImplicit false

namespace Diglot.Lowering

variable {f : Frame} {s s' t t' u v w x : State} {anchor : Option Nat} {c d : Cursor} {target value : Node}
  {span : Span}

/-! ## Statements -/

/-- A statement is lowered if looking ahead does nothing, and its value and its store are lowered. -/
theorem run_graphStatement (span : Span) {isTemporary isLast : Bool} {type : Ty} {path : Path} (hs : f.LooksOut s.session)
    (hahead : Idle f { s with session := { s.session with nextUid := s.session.nextUid + 1 } } (probe value))
    (hvalue : expression value { f with isTracked := true }
      { s with session := { s.session with nextUid := s.session.nextUid + 1 }, node := openNode f s isTemporary } =
        .ok type v)
    (hv : f.LooksOut v.session)
    (hchain : if isLast then recordSplitChain { f with isTracked := true } v = .ok () w else w = v)
    (hstore : assignTo target (w.refined type) { f with isTracked := true } w = .ok path x)
    (hx : f.Proceeds x) :
    ∃ startPc endPc t, graphStatement target value span isTemporary isLast f s =
        .ok { x.node with startPc, endPc, updated := some path } t ∧ Unmoved f.block x t := by
  obtain ⟨startPc, hstart⟩ : ∃ p, pc { f with isTracked := true }
      { s with session := { s.session with nextUid := s.session.nextUid + 1 }, node := openNode f s isTemporary } =
        .ok p _ := ⟨_, run_pc _ _ hs.canEmit⟩
  obtain ⟨endPc, hend⟩ : ∃ p, pc { f with isTracked := true } v = .ok p v := ⟨_, run_pc _ _ hv.canEmit⟩
  have hstored : lowerValueAndStore target value isLast { f with isTracked := true }
      { s with session := { s.session with nextUid := s.session.nextUid + 1 }, node := openNode f s isTemporary } =
        .ok (startPc, endPc - 1, path) x := by
    have hrest : (do
        let updated ← assignTo target (← refineType type)
        return (startPc, endPc - 1, updated) : Lower (Nat × Nat × Path)) { f with isTracked := true } w =
          .ok (startPc, endPc - 1, path) x :=
      bind_eq_ok.mpr ⟨_, w, run_refineType .., bind_eq_ok.mpr ⟨path, x, hstore, rfl⟩⟩
    refine bind_eq_ok.mpr ⟨startPc, _, hstart, bind_eq_ok.mpr ⟨type, v, hvalue, bind_eq_ok.mpr ⟨endPc, v, hend, ?_⟩⟩⟩
    cases isLast with
    | true => exact bind_eq_ok.mpr ⟨(), w, hchain, hrest⟩
    | false =>
      cases hchain
      exact hrest
  obtain ⟨_, y, hdepx, hxy⟩ := Silent.emitDepx f x hx
  obtain ⟨⟨⟩, t, hnote, hyt⟩ := Silent.note .trace .code
    ("statement at " ++ span.record ++ " lowered into " ++ toString startPc ++ "..=" ++ toString (endPc - 1)) f y
    (hx.congr hxy.constant)
  refine ⟨startPc, endPc - 1, t, ?_, hxy.trans hyt⟩
  have htracking : tracking (openNode f s isTemporary) (lowerValueAndStore target value isLast) f
      { s with session := { s.session with nextUid := s.session.nextUid + 1 } } =
        .ok ((startPc, endPc - 1, path), x.node) x := by
    rw [run_tracking, hstored]
  refine bind_eq_ok.mpr ⟨_, _, run_freshNode isTemporary f s, bind_eq_ok.mpr ⟨(), _, hahead, ?_⟩⟩
  refine bind_eq_ok.mpr ⟨_, x, htracking, bind_eq_ok.mpr ⟨_, y, hdepx, bind_eq_ok.mpr ⟨(), t, hnote, rfl⟩⟩⟩

/-! ## Factors -/

/-- What the last called procedure returns is the same for runs that are abreast. -/
theorem Abreast.refined (hs : Abreast anchor f s s') (type : Ty) : s'.refined type = s.refined type := by
  unfold State.refined
  rw [hs.lastCallee, funext hs.level.beside.procedure?]

/-- The second of two runs that are abreast may begin a new node. -/
theorem Abreast.begin {node n : GraphNode} (hs : Abreast anchor f s { s' with node }) (hn : n.isSealed = false)
    (counters : Counters) (nextUid : Nat) :
    Abreast anchor f s { s' with session := { s'.session with counters, nextUid }, node := n } := by
  have hbeside : s.session.Beside { s'.session with counters, nextUid } :=
    hs.level.beside.congr (.refl _) ⟨rfl, rfl, rfl, rfl, rfl, rfl⟩
  exact ⟨⟨hbeside, hs.level.options, hs.level.file, hs.level.lateVariables, hs.level.lateFunctions,
    hs.level.diagnostics⟩, hs.callees, hs.lastCallee, hs.proceeds, hn, hs.noAnchor, hs.mayAnchor⟩

theorem Abreast.unanchored (hs : Abreast anchor f s s') : Abreast none f s s' := { hs with mayAnchor := nofun }

/-- The second of two runs that are abreast may hold nodes and segments back. -/
theorem Abreast.hold (hs : Abreast anchor f s s') (held : List GraphNode) (pointers : List Node) :
    Abreast anchor f s { s' with held, pointers } :=
  ⟨hs.level, hs.callees, hs.lastCallee, hs.proceeds, hs.isOpen, hs.noAnchor, hs.mayAnchor⟩

/-- The nodes read one path after the other, each behind what the node before it writes. The first one reads
behind `pre`, and `last` is what the last one writes. -/
inductive Threads : Path → List Path → List GraphNode → Segment → Prop where
  | one {pre p : Path} {n : GraphNode} {last : Segment} :
      pre ++ p ∈ n.inputs → n.updated = some [last] → Threads pre [p] [n] last
  | more {pre p : Path} {ps : List Path} {n : GraphNode} {ns : List GraphNode} {written last : Segment} :
      pre ++ p ∈ n.inputs → n.updated = some [written] → Threads [written] ps ns last →
        Threads pre (p :: ps) (n :: ns) last

/-- The split run has come from `s'` to `t'`, where the whole one has come to `t`, and holds the nodes back.
The value so far is in the variable that was made up last. -/
structure Reaches (f : Frame) (s' t t' : State) (ns : List GraphNode) (name : String) (r : SymbolRef)
    (x : Symbol) : Prop where
  abreast : Abreast none f t t'
  hasSpare : (sightFrom f t'.session).HasSpare
  shown : (sightFrom f t'.session).Shows name r x
  nodes : t'.session.nodes = s'.session.nodes
  held : t'.held.map GraphNode.bare = s'.held.map GraphNode.bare ++ ns.map GraphNode.bare
  isOpen : ∀ n ∈ ns, n.isSealed = false ∧ n.block = f.block

/-- Nodes that are held back one after the other. -/
theorem Reaches.andThen {ns ms : List GraphNode} {name name' : String} {r r' : SymbolRef} {x x' : Symbol}
    {pointers : List Node} (h : Reaches f s' t t' ns name r x)
    (h' : Reaches f { t' with pointers } u v ms name' r' x') : Reaches f s' u v (ns ++ ms) name' r' x' := by
  refine ⟨h'.abreast, h'.hasSpare, h'.shown, h'.nodes.trans h.nodes, ?_, fun n hn => ?_⟩
  · rw [h'.held, h.held, List.map_append, List.append_assoc]
  · exact (List.mem_append.mp hn).elim (h.isOpen n) (h'.isOpen n)

theorem Reaches.behind {ns : List GraphNode} {name : String} {r : SymbolRef} {x : Symbol} {pointers : List Node}
    (h : Reaches f { s' with pointers } t t' ns name r x) : Reaches f s' t t' ns name r x :=
  ⟨h.abreast, h.hasSpare, h.shown, h.nodes, h.held, h.isOpen⟩

/-- The next factor of the chain is due. The whole run lowers its segments from `s` to `t`, which moves the
cursor from `c` to `d`, and the split run has come to `s'`. The names are those of the session `o`. -/
structure Due (o : Session) (anchor : Option Nat) (f : Frame) (factor : Node) (pre : Path) (c d : Cursor)
    (s s' t : State) : Prop where
  names : o.SameNames s.session
  abreast : ∃ node, Abreast anchor f s { s' with node }
  hasSpare : (sightFrom f s'.session).HasSpare
  follows : ∃ isRoot q, Follows anchor { f with isTracked := true } isRoot q c factor pre s'.session ∧
    lowerSegments expression isRoot q c { f with isTracked := true } s = .ok d t
  ahead : ∀ a : State, s'.session.SameNames a.session → Idle { f with anchor } a (probe factor)
  isStatic : d.IsStatic
  behind : d.depth ≠ 0
  grown : d.path ≠ c.path

/-- The statement of a factor, which stores its value into the variable that is made up next. -/
theorem run_factor (span : Span) (isLast : Bool) {o : Session} {factor : Node} {pre : Path} {k : Nat} (hf : f.HasStatements)
    (h : Due o anchor f factor pre c d s s' t) (hk : k = s'.session.counters.temporaries) :
    ∃ n r x t', (do
        hold (← withReader (fun f => { f with anchor })
          (graphStatement (.identifier (.plain (temporaryName k) span)) factor span true isLast)) : Lower Unit) f
          { s' with session := { s'.session with
            counters := { s'.session.counters with temporaries := k + 1 } } } = .ok () t' ∧
      o.SameNames t.session ∧ Reaches f s' t t' [n] (temporaryName k) r x ∧
      x.type = declaredType (t.refined d.type) ∧
      n.updated = some [.ofName (temporaryName k) (some r) x.classScope] ∧
      ∃ p, d.path = c.path ++ p ∧ pre ++ p.bare ∈ n.inputs := by
  obtain ⟨node, hs⟩ := h.abreast
  obtain ⟨isRoot, q, hfollows, hrun⟩ := h.follows
  let g : Frame := { f with anchor }
  let a : State := { s' with session := { s'.session with
    counters := { s'.session.counters with temporaries := k + 1 } } }
  have hnames : s'.session.SameNames a.session := ⟨rfl, rfl, rfl, rfl, rfl, rfl⟩
  have hlooks : g.LooksOut a.session := hs.right.looksOut.congr hnames
  let b : State := { a with session := { a.session with nextUid := a.session.nextUid + 1 }, node := openNode g a true }
  have hbegun : Abreast anchor { f with isTracked := true } s b := (hs.begin rfl _ _).site rfl rfl
  have hb : s'.session.SameNames b.session := ⟨rfl, rfl, rfl, rfl, rfl, rfl⟩
  obtain ⟨u, hvalue, hu, hst, hconstant, p, hp, hinput⟩ :=
    hfollows s b t d hb hbegun hrun h.isStatic.isStopped h.grown
  obtain ⟨w, hchain, hw⟩ : ∃ w, (if isLast then recordSplitChain { g with isTracked := true } u = .ok () w
      else w = u) ∧ Unmoved f.block u w := by
    cases isLast with
    | true =>
      obtain ⟨⟨⟩, w, hrecord, hw⟩ := Silent.recordSplitChain { g with isTracked := true } u hu.right
      exact ⟨w, hrecord, hw⟩
    | false => exact ⟨u, rfl, .refl _ u⟩
  have habreast := hu.unmoved (.refl _ t) hw
  have hsame : s'.session.SameNames w.session := hb.trans (hconstant.names.trans hw.constant.names)
  have hcounters : w.session.counters.temporaries = k + 1 := by
    rw [hw.constant.counters, hconstant.counters]
  obtain ⟨r, x, y, hstore, htype, hy, htended, hshown, hmore⟩ :=
    habreast.temporary ⟨hf.own, hf.anchor, hf.notVoid⟩ k span
      ((Sight.resolve_sightFrom hsame f _).trans (h.hasSpare k hk.ge)) (h.hasSpare.congr hsame (by omega)) (by omega)
      (w.refined d.type)
  have hcomputed : g.Proceeds u := hu.right.site rfl
  have hstored : g.Proceeds y := hy.right.site rfl
  obtain ⟨startPc, endPc, v, hstatement, hv⟩ := run_graphStatement span (f := g) (s := a) hlooks
    (h.ahead _ ⟨rfl, rfl, rfl, rfl, rfl, rfl⟩) hvalue hcomputed.looksOut hchain hstore hstored
  have hends : Abreast anchor f t v := (hy.unmoved (.refl _ t) hv).site rfl rfl
  let n : GraphNode :=
    { y.node with startPc, endPc, updated := some [.ofName (temporaryName k) (some r) x.classScope] }
  have hheld : v.held.map GraphNode.bare = s'.held.map GraphNode.bare :=
    hv.constant.held.trans (htended.held.trans (hw.constant.held.trans hconstant.held))
  refine ⟨n, r, x, { v with held := v.held ++ [n] }, ?_, h.names.trans hst.names, ⟨?_, ?_, ?_, ?_, ?_, ?_⟩, ?_, rfl, p, hp, ?_⟩
  · exact bind_eq_ok.mpr ⟨n, v, hstatement, rfl⟩
  · exact hends.unanchored.hold _ _
  · exact Sight.HasSpare.congr hmore hv.constant.names (by rw [hv.constant.counters])
  · exact Sight.Shows.congr ⟨hshown.found, hshown.symbol⟩ hv.constant.names
  · exact hv.constant.nodes.trans (htended.nodes.trans (hw.constant.nodes.trans hconstant.nodes))
  · rw [List.map_append, hheld]
  · intro m hm
    obtain rfl := List.mem_singleton.mp hm
    exact ⟨hy.isOpen, htended.block.trans (hw.constant.block.trans hconstant.block)⟩
  · rw [htype, habreast.refined]
  · exact htended.inputs (hw.constant.inputs hinput)

/-- A segment of a chain that can be split off: looking ahead into it finds nothing to declare. -/
structure Sight.SplitsOff (v : Sight) (n : Node) : Prop where
  isSegment : n.isSegment = true
  plain : n.LooksUpPlain false
  ahead : ∀ a ∈ n.arguments, v.NothingAhead a

theorem Sight.SplitsOff.looksUpPlain {v : Sight} {n a : Node} (h : v.SplitsOff n) (ha : a ∈ n.arguments) :
    a.LooksUpPlain true := by
  cases n with
  | call call =>
    intro name hname
    refine h.plain name ?_
    rw [Node.roots_call]
    exact List.mem_append_left _ (Node.mem_allRoots.mpr ⟨a, ha, hname⟩)
  | _ => cases ha

/-- A value whose members can be looked up has a type that a variable can be declared with. -/
theorem declaredType_refined (hreceiver : c.receiver?.isSome) (hanchor : c.anchor = none) (s : State) :
    declaredType (s.refined c.type) = c.type := by
  obtain ⟨cls, hcls⟩ := Option.isSome_iff_exists.mp hreceiver
  unfold Cursor.receiver? at hcls
  rw [hanchor] at hcls
  dsimp only at hcls
  split at hcls
  case isFalse => cases hcls
  next hclass =>
  rw [Bool.and_eq_true] at hclass
  have hdeclared : Primitive.count ≤ cls := by
    have := hclass.1
    rw [Ty.isClass, hcls] at this
    simpa using this
  have hnot (p : Primitive) : c.type.is p = false := by
    have hlt : p.uid < Primitive.count := by cases p <;> decide
    rw [Ty.is, hcls]
    simp
    omega
  unfold State.refined declaredType
  rw [hnot, if_neg Bool.false_ne_true, hnot, hcls]
  rfl

/-- Behind a factor the next one is due, which reads the next segment behind the variable that was made up. -/
theorem Reaches.due (span : Span) {o : Session} {ns : List GraphNode} {k : Nat} {r : SymbolRef} {x : Symbol} {segment : Node}
    (h : Reaches f s' s t' ns (temporaryName k) r x) (hnames : o.SameNames s.session) (hc : c.IsStatic)
    (hbehind : c.depth ≠ 0) (hanchor : c.anchor = none) (htype : x.type = c.type)
    (hsegment : (sightFrom f o).SplitsOff segment) (hmoved : Sight.Moved c d)
    (hrun : lowerSegment expression false segment c { f with isTracked := true } s = .ok d t) (lastFactor : Bool)
    (pointers : List Node) :
    Due o none f (.member (.identifier (.plain (temporaryName k) span)) segment .dot lastFactor span)
      [.ofName (temporaryName k) (some r) x.classScope] c d s { t' with pointers } t := by
  have habreast : Abreast none f s { t' with pointers } := h.abreast.hold t'.held pointers
  refine ⟨hnames, ⟨t'.node, habreast⟩, h.hasSpare, ⟨false, [segment], ?_, ?_⟩, fun a ha => ?_, hmoved.isStatic,
    hmoved.behind, ?_⟩
  · exact Follows.ofSegment (f := { f with isTracked := true }) rfl hsegment.isSegment hsegment.plain hc hbehind
      hanchor ⟨h.shown.found, h.shown.symbol⟩ htype _ _ _
  · unfold lowerSegments
    rw [hc.isStopped, if_neg Bool.false_ne_true]
    exact bind_eq_ok.mpr ⟨d, t, hrun, rfl⟩
  · have hbeside : o.Beside a.session := h.abreast.level.beside.congr hnames.symm ha
    have hlooks : ({ f with anchor := none } : Frame).LooksOut a.session := habreast.right.looksOut.congr ha
    have hahead (b : Node) (hb : b ∈ segment.arguments) :
        (sightFrom { f with anchor := none } a.session).NothingAhead b :=
      (hsegment.ahead b hb).beside hbeside (hsegment.looksUpPlain hb) none
    have hmadeUp : (Node.identifier (.plain (temporaryName k) span)).isSegment = true := rfl
    exact Idle.probe_member hlooks hmadeUp hsegment.isSegment hahead _ _
  · obtain ⟨y, hy⟩ := hmoved.path
    simp [hy]

theorem bind_hold {m : Lower GraphNode} (h : (do hold (← m) : Lower Unit) f s = .ok () t) (k : Lower Unit) :
    (m >>= fun n => hold n >>= fun _ => k) f s = k f t := by
  rw [← bind_assoc]
  exact (run_bind ..).trans (by rw [h])

/-- A factor is lowered, and then the segments behind it, until the value of the chain is in a made-up variable
and goes to the target. -/
theorem run_lowerFactors (target : Node) (span : Span) {o : Session} {rest : List Node} {anchor : Option Nat} {s s' t u : State} {factor : Node}
    {pre : Path} {c d e e' : Cursor} (hf : f.HasStatements) (h : Due o anchor f factor pre c d s s' t)
    (hanchor : rest ≠ [] → d.anchor = none) (hrest : ∀ n ∈ rest, (sightFrom f o).SplitsOff n)
    (htrace : (sightFrom f o).trace? d rest = some e)
    (hrun : lowerSegments expression false rest d { f with isTracked := true } t = .ok e' u) :
    e' = e ∧ ∃ k ns r x w, lowerFactors target span factor anchor rest f s' =
        (do hold (← graphStatement target (.identifier (.plain (temporaryName k) span)) span false false)) f w ∧
      Reaches f s' u w ns (temporaryName k) r x ∧ x.type = declaredType (u.refined e.type) ∧
      ∃ p p', d.path = c.path ++ p ∧ e.path = d.path ++ p' ∧
        Threads pre (p.bare :: p'.bare.map fun y => [y]) ns (.ofName (temporaryName k) (some r) x.classScope) := by
  induction rest generalizing anchor s s' t factor pre c d with
  | nil =>
    cases hrun
    cases htrace
    obtain ⟨n, r, x, w, hfactor, -, hreaches, htype, hupdated, p, hp, hinput⟩ :=
      run_factor span true hf h rfl
    refine ⟨rfl, _, [n], r, x, w, ?_, hreaches, htype, p, [], hp, (List.append_nil _).symm, .one hinput hupdated⟩
    exact bind_hold hfactor _
  | cons segment rest ih =>
    have hsegment := hrest segment (List.mem_cons_self ..)
    obtain ⟨n, r, x, w, hfactor, hnames, hreaches, htype, hupdated, p, hp, hinput⟩ :=
      run_factor span false hf h rfl
    rw [Sight.trace?_cons] at htrace
    obtain ⟨d₁, hstep, htrace⟩ := Option.bind_eq_some_iff.mp htrace
    unfold lowerSegments at hrun
    rw [h.isStatic.isStopped, if_neg Bool.false_ne_true] at hrun
    obtain ⟨d', t₁, hlower, hrun⟩ := bind_eq_ok.mp hrun
    have hstep' : (sightFrom { f with isTracked := true } t.session).step? d segment = some d₁ :=
      (Sight.step?_congr hnames _ d segment).trans hstep
    obtain rfl := lowerSegment_step hstep' hlower
    have hmoved := Sight.step?_moved h.isStatic hstep
    obtain ⟨hreceiver, hanchor₁⟩ := Sight.step?_behind h.behind hstep
    have hvalue : x.type = d.type :=
      htype.trans (declaredType_refined hreceiver (hanchor (List.cons_ne_nil _ _)) t)
    have hdue := hreaches.due span hnames h.isStatic h.behind (hanchor (List.cons_ne_nil _ _)) hvalue
      hsegment hmoved hlower rest.isEmpty (w.pointers ++ [segment])
    obtain ⟨rfl, k, ns, r', x', w', hfactors, hreaches', htype', p₁, p', hp₁, hp', hthreads⟩ :=
      ih hdue (fun _ => hanchor₁) (fun m hm => hrest m (List.mem_cons_of_mem segment hm)) htrace hrun
    obtain ⟨y, hy⟩ := hmoved.path
    obtain rfl : p₁ = [y] := List.append_cancel_left (hp₁.symm.trans hy)
    refine ⟨rfl, k, n :: ns, r', x', w', ?_, hreaches.andThen hreaches', htype', p, y :: p', hp, ?_,
      .more hinput hupdated hthreads⟩
    · exact (bind_hold hfactor _).trans hfactors
    · rw [hp', hp₁, List.append_assoc]
      rfl

/-! ## Chains -/

/-- The paths that the factors of a split chain read, one for each segment. If the first segment names a class,
the next one stays with it. -/
def factorPaths (isAnchored : Bool) (p : Path) : List Path :=
  if isAnchored then p.take 2 :: (p.drop 2).map fun y => [y] else p.map fun y => [y]

theorem indexOf?_injective {classes : ClassTable} {a b : String} {cls : Nat} (ha : classes.indexOf? a = some cls)
    (hb : classes.indexOf? b = some cls) : a = b := by
  obtain ⟨_, ha, -⟩ := List.findIdx?_eq_some_iff_getElem.mp ha
  obtain ⟨_, hb, -⟩ := List.findIdx?_eq_some_iff_getElem.mp hb
  rw [beq_iff_eq] at ha hb
  exact ha.symm.trans hb

/-- The class that anchors a chain is not hidden by a variable. -/
theorem mayAnchor_splitAnchor? {v : Sight} {segments : List Node} :
    v.MayAnchor (splitAnchor? v segments) := by
  intro name cls hanchor hcls
  unfold splitAnchor? at hanchor
  split at hanchor
  · split at hanchor
    · next hfree =>
      rw [indexOf?_injective hcls hanchor]
      exact hfree
    · cases hanchor
  · cases hanchor

/-- A chain whose segments are resolved statically and can be split off. -/
structure Sight.Splits (v : Sight) (segments : List Node) (d : Cursor) : Prop where
  length : 2 ≤ segments.length
  each : ∀ n ∈ segments, v.SplitsOff n
  plain : ∀ name ∈ Node.chainRoots true segments, IsPlainName name
  root : ∀ n ∈ segments.head?, v.NothingAhead n
  trace : v.trace? (.start false) segments = some d

section
variable {o : Session} {node : GraphNode} {root second : Node} (hnames : o.SameNames s.session)
  (hs : Abreast none f s { s' with node }) (hspare : (sightFrom f s'.session).HasSpare)
  (hroot : (sightFrom f o).SplitsOff root)
include hnames hs hspare hroot

/-- The first segment of a chain is due as a factor of its own. -/
theorem due_root (hplain : root.LooksUpPlain true) (hahead : (sightFrom f o).NothingAhead root)
    (hmoved : Sight.Moved (.start false) d)
    (hrun : lowerSegment expression true root (.start false) { f with isTracked := true } s = .ok d t)
    (pointers : List Node) : Due o none f root [] (.start false) d s { s' with pointers } t := by
  have habreast : Abreast none f s { s' with node, pointers } := hs.hold s'.held pointers
  refine ⟨hnames, ⟨node, habreast⟩, hspare, ⟨true, [root], ?_, ?_⟩, fun a ha => ?_, hmoved.isStatic,
    hmoved.behind, ?_⟩
  · exact Follows.ofRoot (f := { f with isTracked := true }) rfl hroot.isSegment hplain
  · exact bind_eq_ok.mpr ⟨d, t, hrun, rfl⟩
  · have hbeside : o.Beside a.session := hs.level.beside.congr hnames.symm ha
    have hlooks : ({ f with anchor := none } : Frame).LooksOut a.session := habreast.right.looksOut.congr ha
    exact Idle.probe hlooks (hahead.beside hbeside hplain none)
  · obtain ⟨y, hy⟩ := hmoved.path
    simp [hy]

/-- The name of a class and the segment behind it are due as one factor. -/
theorem due_class (span : Span) (hsecond : (sightFrom f o).SplitsOff second)
    (hplain : ∀ name ∈ Node.chainRoots true [root, second], IsPlainName name)
    (hanchor : (sightFrom f o).MayAnchor anchor) (hmoved : Sight.Moved (.start false) c) (hmoved' : Sight.Moved c d)
    (hrun : lowerSegment expression true root (.start false) { f with isTracked := true } s = .ok c t)
    (hrun' : lowerSegment expression false second c { f with isTracked := true } t = .ok d u)
    (lastFactor : Bool) (pointers : List Node) :
    Due o anchor f (.member root second .dot lastFactor span) [] (.start false) d s { s' with pointers } u := by
  have hanchored : Abreast anchor f s { s' with node } :=
    { hs with mayAnchor := Abreast.mayAnchor_congr hnames hanchor }
  have habreast : Abreast anchor f s { s' with node, pointers } := hanchored.hold s'.held pointers
  refine ⟨hnames, ⟨node, habreast⟩, hspare, ⟨true, [root, second], ?_, ?_⟩, fun a ha => ?_, hmoved'.isStatic,
    hmoved'.behind, ?_⟩
  · exact Follows.ofClass (f := { f with isTracked := true }) rfl hroot.isSegment hsecond.isSegment hplain _ _
  · refine bind_eq_ok.mpr ⟨c, t, hrun, ?_⟩
    unfold lowerSegments
    rw [hmoved.isStatic.isStopped, if_neg Bool.false_ne_true]
    exact bind_eq_ok.mpr ⟨d, u, hrun', rfl⟩
  · have hbeside : o.Beside a.session := hs.level.beside.congr hnames.symm ha
    have hlooks : ({ f with anchor } : Frame).LooksOut a.session := habreast.right.looksOut.congr ha
    have hahead (b : Node) (hb : b ∈ root.arguments ++ second.arguments) :
        (sightFrom { f with anchor } a.session).NothingAhead b := by
      obtain hb | hb := List.mem_append.mp hb
      · exact (hroot.ahead b hb).beside hbeside (hroot.looksUpPlain hb) anchor
      · exact (hsecond.ahead b hb).beside hbeside (hsecond.looksUpPlain hb) anchor
    exact Idle.probe_member hlooks hroot.isSegment hsecond.isSegment hahead _ _
  · obtain ⟨y, hy⟩ := hmoved.path
    obtain ⟨z, hz⟩ := hmoved'.path
    simp [hy, hz]

end

section
variable {root second : Node} {rest : List Node} (target : Node) (span : Span) (hlooks : f.LooksOut s.session)
include hlooks

theorem splitChain_of_none (h : splitAnchor? (sightFrom f s.session) (root :: rest) = none) :
    splitChain target (root :: rest) span f s =
      lowerFactors target span root none rest f { s with pointers := s.pointers ++ [root] } := by
  unfold splitChain
  rw [run_bind, hlooks.run_sight]
  dsimp only
  rw [h]
  rfl

theorem splitChain_of_some {cls : Nat}
    (h : splitAnchor? (sightFrom f s.session) (root :: second :: rest) = some cls) :
    splitChain target (root :: second :: rest) span f s =
      lowerFactors target span (.member root second .dot false span) (some cls) rest f
        { s with pointers := s.pointers ++ [root, second] } := by
  unfold splitChain
  rw [run_bind, hlooks.run_sight]
  dsimp only
  rw [h]
  rfl

end

/-- Splitting a chain lowers its factors, until the value of the chain is in a made-up variable and goes to the
target. -/
theorem run_splitChain (target : Node) (span : Span) {o : Session} {node : GraphNode} {segments : List Node} (hf : f.HasStatements)
    (hnames : o.SameNames s.session) (hnames' : o.SameNames s'.session) (hs : Abreast none f s { s' with node })
    (hspare : (sightFrom f s'.session).HasSpare) (hsplits : (sightFrom f o).Splits segments d)
    (hrun : lowerSegments expression true segments (.start false) { f with isTracked := true } s = .ok c u) :
    c = d ∧ ∃ k ns r x w, splitChain target segments span f s' =
        (do hold (← graphStatement target (.identifier (.plain (temporaryName k) span)) span false false)) f w ∧
      Reaches f s' u w ns (temporaryName k) r x ∧ x.type = declaredType (u.refined d.type) ∧
      Threads [] (factorPaths (splitAnchor? (sightFrom f o) segments).isSome d.path.bare) ns
        (.ofName (temporaryName k) (some r) x.classScope) := by
  obtain ⟨hlength, hsegments, hplain, hroot, htrace⟩ := hsplits
  have hproceeds : f.Proceeds { s' with node } := hs.right.site rfl
  have hlooks : f.LooksOut s'.session := hproceeds.looksOut
  match segments, hlength with
  | root :: second :: rest, _ =>
    have hanchor : splitAnchor? (sightFrom f s'.session) (root :: second :: rest) =
        splitAnchor? (sightFrom f o) (root :: second :: rest) := by
      unfold splitAnchor?
      have hclasses : (sightFrom f s'.session).session.classes = (sightFrom f o).session.classes := hnames'.classes
      simp only [Sight.resolve_sightFrom hnames', hclasses]
    -- The whole run lowers the first segment.
    rw [Sight.trace?_cons] at htrace
    obtain ⟨c₁, hstep, htrace⟩ := Option.bind_eq_some_iff.mp htrace
    obtain ⟨e, t, hlower, hrun⟩ := bind_eq_ok.mp hrun
    have hstep' : (sightFrom { f with isTracked := true } s.session).step? (.start false) root = some c₁ :=
      (Sight.step?_congr hnames _ _ root).trans hstep
    obtain rfl := lowerSegment_step hstep' hlower
    have hmoved := Sight.step?_moved (Cursor.isStatic_start false) hstep
    obtain ⟨y, hy⟩ := hmoved.path
    have hrootPlain : root.LooksUpPlain true :=
      fun name hname => hplain name (List.mem_append_left _ hname)
    cases hcls : splitAnchor? (sightFrom f o) (root :: second :: rest) with
    | none =>
      have hdue := due_root hnames hs hspare (hsegments root (List.mem_cons_self ..)) hrootPlain (hroot root rfl) hmoved hlower
        (s'.pointers ++ [root])
      have hunanchored : e.anchor = none := Sight.step?_root hf.anchor rfl rfl hstep hcls
      obtain ⟨rfl, k, ns, r, x, w, hfactors, hreaches, htype, p, p', hp, hp', hthreads⟩ :=
        run_lowerFactors target span hf hdue (fun _ => hunanchored)
          (fun n hn => hsegments n (List.mem_cons_of_mem root hn)) htrace hrun
      refine ⟨rfl, k, ns, r, x, w, ?_, hreaches.behind, htype, ?_⟩
      · exact (splitChain_of_none target span hlooks (hanchor.trans hcls)).trans hfactors
      · obtain rfl : p = [y] := List.append_cancel_left (hp.symm.trans hy)
        rw [hp', hp]
        exact hthreads
    | some cls =>
      have hfront {name : String} (hname : name ∈ Node.chainRoots true [root, second]) :
          name ∈ Node.chainRoots true (root :: second :: rest) := by
        simp only [Node.chainRoots, List.append_nil, List.mem_append] at hname ⊢
        exact hname.imp_right .inl
      have hmay : (sightFrom f o).MayAnchor (some cls) := hcls ▸ mayAnchor_splitAnchor?
      rw [Sight.trace?_cons] at htrace
      obtain ⟨c₂, hstep₂, htrace⟩ := Option.bind_eq_some_iff.mp htrace
      unfold lowerSegments at hrun
      rw [hmoved.isStatic.isStopped, if_neg Bool.false_ne_true] at hrun
      obtain ⟨e₂, t₂, hlower₂, hrun⟩ := bind_eq_ok.mp hrun
      -- Lowering the first segment declares nothing.
      have htracked : Abreast none { f with isTracked := true } s { s' with node } := hs.site rfl rfl
      have hfirst : InStep none (Cursor.Apace (.start false) (.start false))
          (lowerSegment expression true root (.start false)) (lowerSegment expression true root (.start false)) :=
        InStep.lowerSegment InStep.expression (.refl _) hrootPlain fun hbehind => by cases hbehind
      obtain ⟨-, -, -, -, -, hst, -⟩ := hfirst _ s _ e t htracked hlower
      have hstep₂' : (sightFrom { f with isTracked := true } t.session).step? e second = some c₂ :=
        (Sight.step?_congr (hnames.trans hst.names) _ _ second).trans hstep₂
      obtain rfl := lowerSegment_step hstep₂' hlower₂
      have hmoved₂ := Sight.step?_moved hmoved.isStatic hstep₂
      obtain ⟨z, hz⟩ := hmoved₂.path
      have hdue := due_class hnames hs hspare (hsegments root (List.mem_cons_self ..)) span
        (hsegments second (by simp)) (fun name hname => hplain name (hfront hname)) hmay hmoved hmoved₂ hlower hlower₂ false
        (s'.pointers ++ [root, second])
      obtain ⟨rfl, k, ns, r, x, w, hfactors, hreaches, htype, p, p', hp, hp', hthreads⟩ :=
        run_lowerFactors target span hf hdue
          (fun _ => (Sight.step?_behind hmoved.behind hstep₂).2)
          (fun n hn => hsegments n (by simp [hn])) htrace hrun
      refine ⟨rfl, k, ns, r, x, w, ?_, hreaches.behind, htype, ?_⟩
      · exact (splitChain_of_some target span hlooks (hanchor.trans hcls)).trans hfactors
      · obtain rfl : p = [y, z] := List.append_cancel_left (hp.symm.trans (by rw [hz, hy]; rfl))
        rw [hp', hp]
        exact hthreads

end Diglot.Lowering
