import Diglot.Proofs.Chains.InStep
import Diglot.Proofs.Chains.Expression
import Diglot.Proofs.Chains.Probe
import Diglot.Proofs.Chains.Resolved
import Diglot.Proofs.Split.Expression

/-! # Storing into plain names

A store into a name without subscripts finds its variable or declares it (`Entered`), and emits no call. A
variable that is made up for a split chain is declared beside the others (`Abreast.temporary`), and its name
stands for it from then on.
-/

set_option autoImplicit false

namespace Diglot

open Lowering

/-- The name of a variable that is made up for a split chain. -/
def temporaryName (k : Nat) : String := "%ssa_" ++ toString k

theorem temporaryName_injective {j k : Nat} (h : temporaryName j = temporaryName k) : j = k := by
  have hdigits : Nat.toDigits 10 j = Nat.toDigits 10 k :=
    String.ofList_injective ((String.append_right_inj "%ssa_").mp h)
  have hj := Nat.ofDigitChars_toDigits (b := 10) (n := j) (by decide) (by decide)
  have hk := Nat.ofDigitChars_toDigits (b := 10) (n := k) (by decide) (by decide)
  rw [← hj, hdigits, hk]

theorem isTemporaryName_temporaryName (k : Nat) : Text.isTemporaryName (temporaryName k) = true := by
  unfold Text.isTemporaryName temporaryName
  rw [String.toList_append]
  rfl

theorem isThis_temporaryName (k : Nat) (span : Span) : (Identifier.plain (temporaryName k) span).isThis = false := by
  have hmadeUp := isTemporaryName_temporaryName k
  unfold Identifier.isThis
  rw [beq_eq_false_iff_ne]
  intro (h : temporaryName k = thisKeyword)
  rw [h] at hmadeUp
  revert hmadeUp
  decide

/-- A value without subscripts keeps its type. -/
theorem Ty.subscripted_zero (type : Ty) : type.subscripted 0 = type := by
  obtain ⟨uid, rank⟩ := type
  unfold subscripted
  split
  · rfl
  · next h =>
    dsimp only at h ⊢
    congr 1
    omega

namespace Lowering

variable {f : Frame} {s s' t t' u : State} {anchor : Option Nat} {d : Declaration} {r : SymbolRef} {x : Symbol}

/-! ## Declaring -/

/-- The variable was declared in the block of the frame, and nothing else has changed that is compared. -/
structure Entered (f : Frame) (d : Declaration) (r : SymbolRef) (x : Symbol) (s t : State) : Prop where
  place : ∃ hd, s.session.header? f.block = some hd ∧ r = ⟨.block f.block, hd.symbols.size⟩ ∧
    x = { s.session.declared f d with position := hd.symbols.size }
  names : ∃ counters,
    ({ s.session with counters }.enterLocal f.block (s.session.declared f d)).SameNames t.session
  temporaries : t.session.counters.temporaries = s.session.counters.temporaries
  tended : Tended s t
  reticent : Reticent s t
  callees : t.session.callees f.block = s.session.callees f.block

namespace Entered

theorem symbol (h : Entered f d r x s t) : t.session.symbol? r = some x := by
  obtain ⟨hd, hblock, rfl, rfl⟩ := h.place
  obtain ⟨counters, hnames⟩ := h.names
  have hblock' : ({ s.session with counters } : Session).header? f.block = some hd := hblock
  rw [hnames.symbol?_eq, Session.symbol?_block, Session.header?_enterLocal, if_pos rfl, hblock']
  exact SymbolTable.get?_append_size _ _

theorem type (h : Entered f d r x s t) : x.type = d.type := by
  obtain ⟨hd, -, -, rfl⟩ := h.place
  rfl

/-- The anchor of a split chain does not matter for what is declared. -/
theorem unanchored (h : Entered { f with anchor } d r x s t) : Entered f d r x s t :=
  ⟨h.place, h.names, h.temporaries, h.tended, h.reticent, h.callees⟩

theorem unmoved (h : Entered f d r x s t) (ht : Unmoved f.block t u) : Entered f d r x s u where
  place := h.place
  names := by
    obtain ⟨counters, hnames⟩ := h.names
    exact ⟨counters, hnames.trans ht.constant.names⟩
  temporaries := by
    rw [ht.constant.counters]
    exact h.temporaries
  tended := h.tended.trans ht.constant.tended
  reticent := h.reticent.trans ht.reticent
  callees := ht.callees.trans h.callees

theorem looksOut (h : Entered f d r x s t) (hs : f.LooksOut s.session) : f.LooksOut t.session := by
  obtain ⟨counters, hnames⟩ := h.names
  generalize hu : { s.session with counters }.enterLocal f.block (s.session.declared f d) = u at hnames
  have hsize : u.blocks.size = s.session.blocks.size := by
    rw [← hu]
    exact Session.size_blocks_modifyBlock _ _ _
  have hparent (id : Nat) : (u.header? id).map Header.parent = (s.session.header? id).map Header.parent := by
    rw [← hu, Session.header?_enterLocal]
    split
    · change Option.map Header.parent (Option.map _ (s.session.header? id)) = _
      cases s.session.header? id <;> rfl
    · rfl
  have henclosing := Session.enclosing?_congr hsize hparent f.block
  refine Frame.LooksOut.congr ⟨?_, fun body hbody => ?_⟩ hnames
  · rw [henclosing]
    exact hs.blocks
  · have hblock := hs.body body hbody
    rw [← Session.header?_isSome] at hblock ⊢
    rw [← Option.isSome_map (f := Header.parent), hparent, Option.isSome_map]
    exact hblock

theorem proceeds (h : Entered f d r x s t) (hs : f.Proceeds s) : f.Proceeds t := by
  obtain ⟨counters, hnames⟩ := h.names
  exact ⟨h.looksOut hs.looksOut, hnames.isWatching.trans hs.isWatching, h.tended.isSealed.trans hs.isOpen⟩

/-- The name that was unbound stands for the variable. -/
theorem resolve_self (h : Entered f d r x s t) (hown : f.IsOwn)
    (hvoid : f.scope.classScope ≠ some Primitive.void.uid) (hlooks : f.LooksOut s.session)
    (hstatic : d.isStatic = false) (hfree : (sightFrom f s.session).resolve d.name = .unbound) :
    (sightFrom f t.session).resolve d.name = .found r := by
  obtain ⟨hd, hblock, rfl, -⟩ := h.place
  obtain ⟨counters, hnames⟩ := h.names
  have hsame : s.session.SameNames { s.session with counters } := ⟨rfl, rfl, rfl, rfl, rfl, rfl⟩
  have hblock' : ({ s.session with counters } : Session).header? f.block = some hd := hblock
  rw [Sight.resolve_sightFrom hnames]
  refine Sight.resolve_entered_found hblock' (x := s.session.declared f d) hstatic ?_ ?_ hvoid ?_
  · rw [Sight.resolve_sightFrom hsame]
    exact hfree
  · have hmember : ({ s.session.declared f d with position := hd.symbols.size } : Symbol).isMember = false :=
      isMember_declared hown.declaresLocals s.session d
    unfold Sight.isVisible
    rw [hmember]
    simp [Session.declared, symbolOf, sightFrom]
  · rw [hsame.enclosing?_eq]
    exact hlooks.blocks

/-- Other names stand for what they stood for before. -/
theorem resolve_other (h : Entered f d r x s t) (hindexed : s.session.Indexed) {name : String}
    (hne : name ≠ d.name) :
    (sightFrom f t.session).resolve name = (sightFrom f s.session).resolve name := by
  obtain ⟨hd, hblock, -, -⟩ := h.place
  obtain ⟨counters, hnames⟩ := h.names
  have hsame : s.session.SameNames { s.session with counters } := ⟨rfl, rfl, rfl, rfl, rfl, rfl⟩
  have hblock' : ({ s.session with counters } : Session).header? f.block = some hd := hblock
  rw [Sight.resolve_sightFrom hnames, ← Sight.resolve_sightFrom hsame]
  exact (Sight.agreeOn_entered hblock' (x := s.session.declared f d) hindexed hne).resolve

/-- A made-up variable is declared beside the others. -/
theorem beside {a : Session} (h : Entered f d r x s t) (hs : a.Beside s.session) (hstatic : d.isStatic = false)
    (hmadeUp : Text.isTemporaryName d.name = true) : a.Beside t.session := by
  obtain ⟨counters, hnames⟩ := h.names
  have hcounted : a.Beside { s.session with counters } := hs.congr (.refl a) ⟨rfl, rfl, rfl, rfl, rfl, rfl⟩
  exact (hcounted.enterLocal f.block (x := s.session.declared f d) ⟨hmadeUp, hstatic⟩).congr (.refl a) hnames

end Entered

theorem temporaries_countersAfter (d : Declaration) (s : Session) (bucket : Bucket) (size : Nat) :
    (countersAfter d s bucket size).temporaries = s.counters.temporaries := by
  unfold countersAfter
  cases bucket <;> dsimp only [Bucket.setNext] <;> split <;> rfl

/-- Code of no class, or of a procedure, can declare what it stores. -/
theorem run_allocate_entered (hown : f.IsOwn) (hlooks : f.LooksOut s.session) (d : Declaration) :
    ∃ r x t, allocate d f s = .ok r t ∧ Entered f d r x s t := by
  obtain ⟨b, hb⟩ := Option.isSome_iff_exists.mp hlooks.block?_isSome
  have hrun := run_allocate_local hown.declaresLocals d s
  rw [hb] at hrun
  let counters := countersAfter d s.session (bucketOf s.session.isWatching f.scope d.isStatic) 1
  have hheader : s.session.header? f.block = some b.header := Session.header?_of_block? hb
  have hnodes : ({ s.session with counters }.enterLocal f.block (s.session.declared f d)).nodes =
      s.session.nodes := Session.nodes_enterLocal ..
  have hcallees : ({ s.session with counters }.enterLocal f.block (s.session.declared f d)).callees f.block =
      s.session.callees f.block := by
    unfold Session.callees
    rw [Session.stream_enterLocal]
    rfl
  exact ⟨_, { s.session.declared f d with position := b.symbols.size }, _, hrun,
    ⟨b.header, hheader, rfl, rfl⟩, ⟨counters, .refl _⟩, temporaries_countersAfter ..,
    ⟨hnodes, rfl, rfl, rfl, fun _ h => h⟩, ⟨rfl, rfl, rfl, rfl, rfl, rfl⟩, hcallees⟩

/-! ## Storing -/

/-- Once its variable is known, a store into a plain name finishes without a call. -/
theorem run_assignTo_target {ident : Identifier} {type : Ty} (hplain : ident.dims = []) (hthis : ident.isThis = false)
    (htarget : targetSymbol ident type f s = .ok r t) (ht : f.Proceeds t) (hx : t.session.symbol? r = some x) :
    ∃ u, assignTo (.identifier ident) type f s = .ok [.ofName ident.name (some r) x.classScope] u ∧
      Unmoved f.block t u := by
  obtain ⟨n, u, hstore, htu⟩ := Silent.emitStore x 0 ident.span f t ht
  refine ⟨u, ?_, htu⟩
  have hdims : lowerDims expression [] f t = .ok () t := rfl
  unfold assignTo
  dsimp only
  rw [hthis, if_neg Bool.false_ne_true]
  unfold storeIdentifier
  rw [run_bind, htarget, hplain]
  simp only [run_bind, run_getSymbol, hx, hdims, List.length_nil, Nat.lt_irrefl, if_false, hstore, run_pure]

/-- A store into a plain name that was found. -/
theorem run_assignTo_found {ident : Identifier} (hplain : ident.dims = []) (hthis : ident.isThis = false)
    (hs : f.Proceeds s) (hfound : (sightFrom f s.session).resolve ident.name = .found r)
    (hx : s.session.symbol? r = some x) (type : Ty) :
    ∃ t, assignTo (.identifier ident) type f s = .ok [.ofName ident.name (some r) x.classScope] t ∧
      Unmoved f.block s t := by
  have htarget : targetSymbol ident type f s = .ok r s := by
    simp only [targetSymbol, run_bind, hs.looksOut.run_sight, hfound, run_pure]
  exact run_assignTo_target hplain hthis htarget hs hx

/-- A name that stands for nothing is declared where it is stored. -/
theorem run_targetSymbol_unbound (ident : Identifier) (hown : f.IsOwn) (hlooks : f.LooksOut s.session)
    (hfree : (sightFrom f s.session).resolve ident.name = .unbound) (type : Ty) :
    ∃ r x t, targetSymbol ident type f s = .ok r t ∧
      Entered f { name := ident.name, type := declaredType type } r x s t := by
  obtain ⟨r, x, t, hallocate, hentered⟩ :=
    run_allocate_entered hown hlooks { name := ident.name, type := declaredType type }
  refine ⟨r, x, t, ?_, hentered⟩
  simp only [targetSymbol, run_bind, hlooks.run_sight, hfree, hallocate]

/-- A store into a plain name that stands for nothing declares it. -/
theorem run_assignTo_unbound {ident : Identifier} (hplain : ident.dims = []) (hthis : ident.isThis = false)
    (hown : f.IsOwn) (hs : f.Proceeds s) (hfree : (sightFrom f s.session).resolve ident.name = .unbound)
    (type : Ty) :
    ∃ r x t, assignTo (.identifier ident) type f s = .ok [.ofName ident.name (some r) x.classScope] t ∧
      Entered f { name := ident.name, type := declaredType type } r x s t := by
  obtain ⟨r, x, t, htarget, hentered⟩ := run_targetSymbol_unbound ident hown hs.looksOut hfree type
  obtain ⟨u, hrun, htu⟩ := run_assignTo_target hplain hthis htarget (hentered.proceeds hs) hentered.symbol
  exact ⟨r, x, u, hrun, hentered.unmoved htu⟩

/-! ## Made-up variables -/

/-- The names that are made up next stand for nothing yet. -/
def Sight.HasSpare (v : Sight) : Prop :=
  ∀ k, v.session.counters.temporaries ≤ k → v.resolve (temporaryName k) = .unbound

theorem Sight.HasSpare.congr {a b : Session} (h : (sightFrom f a).HasSpare) (hab : a.SameNames b)
    (hcount : a.counters.temporaries ≤ b.counters.temporaries) : (sightFrom f b).HasSpare :=
  fun k hk => (Sight.resolve_sightFrom hab f _).trans (h k (Nat.le_trans hcount hk))

/-- The name stands for the symbol. -/
structure Sight.Shows (v : Sight) (name : String) (r : SymbolRef) (x : Symbol) : Prop where
  found : v.resolve name = .found r
  symbol : v.session.symbol? r = some x

theorem Sight.Shows.congr {a b : Session} {name : String} (h : (sightFrom f a).Shows name r x)
    (hab : a.SameNames b) : (sightFrom f b).Shows name r x :=
  ⟨(Sight.resolve_sightFrom hab f name).trans h.found, (hab.symbol?_eq r).trans h.symbol⟩

/-- The second of two runs that are abreast declares the variable that was made up last, and stores into it. -/
theorem Abreast.temporary (hs : Abreast anchor f s s') (hf : f.HasStatements) (k : Nat) (span : Span)
    (hfree : (sightFrom f s'.session).resolve (temporaryName k) = .unbound)
    (hspare : (sightFrom f s'.session).HasSpare) (hk : k < s'.session.counters.temporaries) (type : Ty) :
    ∃ r x t', assignTo (.identifier (.plain (temporaryName k) span)) type { f with anchor } s' =
        .ok [.ofName (temporaryName k) (some r) x.classScope] t' ∧ x.type = declaredType type ∧
      Abreast anchor f s t' ∧ Tended s' t' ∧ (sightFrom f t'.session).Shows (temporaryName k) r x ∧
      (sightFrom f t'.session).HasSpare := by
  obtain ⟨r, x, t', hrun, hentered⟩ :=
    run_assignTo_unbound (f := { f with anchor }) rfl (isThis_temporaryName k span) hf.own hs.right hfree type
  have h := hentered.unanchored
  have hmadeUp := isTemporaryName_temporaryName k
  have hbeside := h.beside hs.level.beside rfl hmadeUp
  have hlooks : f.LooksOut s'.session := ⟨hs.right.looksOut.blocks, hs.right.looksOut.body⟩
  refine ⟨r, x, t', hrun, h.type, ⟨⟨hbeside, ?_, h.reticent.file.trans hs.level.file,
    h.reticent.lateVariables.trans hs.level.lateVariables, h.reticent.lateFunctions.trans hs.level.lateFunctions,
    h.reticent.diagnostics.trans hs.level.diagnostics⟩, h.callees.trans hs.callees,
    h.reticent.lastCallee.trans hs.lastCallee, hs.proceeds, h.tended.isSealed.trans hs.isOpen, hs.noAnchor,
    hs.mayAnchor⟩, h.tended, ⟨h.resolve_self hf.own hf.notVoid hlooks rfl hfree, h.symbol⟩, fun j hj => ?_⟩
  · rw [h.reticent.options]
    exact hs.level.options
  · have hcount : s'.session.counters.temporaries ≤ j := h.temporaries ▸ hj
    rw [h.resolve_other hs.level.beside.indexed_right fun heq => ?_]
    · exact hspare j hcount
    · have := temporaryName_injective heq
      omega

end Lowering

end Diglot

/-! ## Factors of a split chain

A split chain is lowered factor by factor: its first segment, together with the next one if it names a class,
and then each segment behind a made-up variable that holds the value so far. A factor follows the chain
(`Follows`) if lowering it is in step with lowering its segments where they stand in the chain.
-/

namespace Diglot.Lowering

variable {f : Frame} {s s' t t' u : State} {anchor : Option Nat} {c c' d : Cursor} {part : LowerPart}
  {segments : List Node} {span : Span}

/-! ### Running a chain -/

/-- Behind a read the current node depends on its path. -/
theorem run_recordRead (hs : f.Proceeds s) (htracked : f.isTracked = true) {path : Path} (hpath : path ≠ [])
    (viaCall : Bool) :
    ∃ t, recordRead path viaCall f s = .ok () t ∧ Unmoved f.block s t ∧ path.bare ∈ t.node.inputs := by
  obtain ⟨⟨⟩, t, hrun, hst⟩ := Silent.recordRead path viaCall f s hs
  exact ⟨t, hrun, hst, List.mem_map_of_mem (mem_of_recordRead htracked hpath hrun)⟩

/-- A chain is lowered if its segments are, and then the current node depends on it. -/
theorem run_lowerChain (part : LowerPart) (span : Span) (hs : f.Proceeds s) (htracked : f.isTracked = true) (hne : segments ≠ [])
    (hunwrap : segments.map Node.unwrap = segments) {P : Cursor → State → Prop}
    (hsegments : ∀ u, Unmoved f.block s u → ∃ c w,
      lowerSegments part true segments (.start (segments.length == 1)) f u = .ok c w ∧ f.Proceeds w ∧
        c.path ≠ [] ∧ P c w) :
    ∃ c w t, lowerChain part segments span f s = .ok (if c.isStopped then .null else c.type) t ∧ P c w ∧
      Unmoved f.block w t ∧ c.path.bare ∈ t.node.inputs := by
  have hrest {u : State} (hu : Unmoved f.block s u) :
      ∃ c w t, finishChain part segments (segments.length == 1) span f u =
        .ok (if c.isStopped then .null else c.type) t ∧ P c w ∧ Unmoved f.block w t ∧
          c.path.bare ∈ t.node.inputs := by
    obtain ⟨c, w, hrun, hw, hpath, hP⟩ := hsegments u hu
    simp only [finishChain, run_bind, hrun, run_ite, run_pure]
    split
    · obtain ⟨_, x, hlist, hwx⟩ := Silent.emitPushlist c.depth c.afterCall span f w hw
      obtain ⟨t, hrecord, hxt, hinput⟩ :=
        run_recordRead (hw.congr hwx.constant) htracked hpath c.hasCall
      exact ⟨c, w, t, by rw [hlist]; dsimp only; rw [hrecord], hP, hwx.trans hxt, hinput⟩
    · obtain ⟨t, hrecord, hwt, hinput⟩ := run_recordRead hw htracked hpath c.hasCall
      exact ⟨c, w, t, by rw [hrecord], hP, hwt, hinput⟩
  have hlower {u t : State} {type : Ty} (hguides : guidesWanted f s = .ok false s ∧ u = s ∨ guidesWanted f s = .ok true s ∧
      emitGuides ((segments.getLast?.map Node.guides).getD []) f s = .ok () u)
      (hrun : finishChain part segments (segments.length == 1) span f u = .ok type t) :
      lowerChain part segments span f s = .ok type t := by
    have hempty : segments.isEmpty = false := by simpa using hne
    unfold lowerChain
    rw [hunwrap, hempty, if_neg Bool.false_ne_true]
    obtain ⟨hwanted, rfl⟩ | ⟨hwanted, hguides⟩ := hguides
    · exact bind_eq_ok.mpr ⟨false, u, hwanted, hrun⟩
    · exact bind_eq_ok.mpr ⟨true, s, hwanted, bind_eq_ok.mpr ⟨(), u, hguides, hrun⟩⟩
  have hwanted : guidesWanted f s = .ok (f.isGuided && s.session.options.replicationGuides) s := rfl
  cases hguided : f.isGuided && s.session.options.replicationGuides with
  | true =>
    obtain ⟨⟨⟩, u, hguides, hu⟩ := Silent.emitGuides ((segments.getLast?.map Node.guides).getD []) f s hs
    obtain ⟨c, w, t, hrun, hP⟩ := hrest hu
    exact ⟨c, w, t, hlower (.inr ⟨hguided ▸ hwanted, hguides⟩) hrun, hP⟩
  | false =>
    obtain ⟨c, w, t, hrun, hP⟩ := hrest (.refl _ s)
    exact ⟨c, w, t, hlower (.inl ⟨hguided ▸ hwanted, rfl⟩) hrun, hP⟩

/-! ### Made-up variables -/

/-- A made-up variable at the root of a chain is read as the variable that its name stands for. -/
theorem run_lowerTemporary (part : LowerPart) (span : Span) (hs : f.Proceeds s) (hanchor : f.anchor = none) {k : Nat} {r : SymbolRef} {x : Symbol}
    (h : (sightFrom f s.session).Shows (temporaryName k) r x) (isSingle : Bool) :
    ∃ t, lowerSegments part true [.identifier (.plain (temporaryName k) span)] (.start isSingle) f s =
        .ok { type := x.type, depth := 1, path := [.ofName (temporaryName k) (some r) x.classScope], isSingle } t ∧
      Unmoved f.block s t := by
  have htarget : (sightFrom f s.session).rootTarget (temporaryName k) = .symbol r := by
    have hnone : (sightFrom f s.session).frame.anchor = none := hanchor
    simp [Sight.rootTarget, hnone, h.found]
  have hthis : (Identifier.plain (temporaryName k) span).isThis = false := isThis_temporaryName k span
  obtain ⟨⟨⟩, u, hsplit, hu⟩ := Silent.recordSplitDims [] false f s hs
  have hliterals : literalDims f.dialect [] = [] := by cases f.dialect <;> rfl
  have hstatic : (if x.isStatic = true then none else (Cursor.start isSingle).anchor) = none := by
    split <;> rfl
  have hnodims : lowerDims part [] f s = .ok () s := rfl
  have hdims : (Identifier.plain (temporaryName k) span).dims = [] := rfl
  have hx : s.session.symbol? r = some x := h.symbol
  have hlower : ∃ t, lowerSymbol part (.plain (temporaryName k) span) (.start isSingle) r f s =
      .ok { type := x.type, depth := 1, path := [.ofName (temporaryName k) (some r) x.classScope], isSingle } t ∧
        Unmoved f.block s t := by
    unfold lowerSymbol
    simp only [run_bind, run_getSymbol, hx, hstatic, hdims, hnodims, run_read, hliterals, hsplit,
      List.length_nil, run_ite, Ty.subscripted_zero]
    cases isSingle with
    | true =>
      obtain ⟨_, t, hpush, hut⟩ := Silent.emitPush (.ofSymbol x) 0 (Identifier.plain (temporaryName k) span).span
        f u (hs.congr hu.constant)
      have hsingle : (Cursor.start true).isSingle = true := rfl
      refine ⟨t, ?_, hu.trans hut⟩
      rw [if_pos hsingle, hpush]
      rfl
    | false =>
      obtain ⟨_, t, hpush, hut⟩ := Silent.emitPushm (.ofSymbol x) x.classScope
        (Identifier.plain (temporaryName k) span).span f u (hs.congr hu.constant)
      have hsingle : ¬ (Cursor.start false).isSingle = true := Bool.false_ne_true
      refine ⟨t, ?_, hu.trans hut⟩
      rw [if_neg hsingle, if_neg (Nat.lt_irrefl 0), hpush]
      rfl
  obtain ⟨t, hrun, hst⟩ := hlower
  refine ⟨t, ?_, hst⟩
  have hidentifier := (lowerIdentifier_eq hs.looksOut part hthis (c := .start isSingle) rfl htarget).trans hrun
  exact bind_eq_ok.mpr ⟨_, t, hidentifier, rfl⟩

/-! ### Factors -/

/-- From a session on, lowering the factor is in step with lowering the segments of the chain from the cursor,
if these are not replaced by null. The factor reads them behind the path `pre`. -/
def Follows (anchor : Option Nat) (f : Frame) (isRoot : Bool) (segments : List Node) (c : Cursor) (factor : Node)
    (pre : Path) (a : Session) : Prop :=
  ∀ s s' t d, a.SameNames s'.session → Abreast anchor f s s' →
    lowerSegments expression isRoot segments c f s = .ok d t → d.isStopped = false → d.path ≠ c.path →
    ∃ t', expression factor { f with anchor } s' = .ok d.type t' ∧ Abreast anchor f t t' ∧ Constant s t ∧
      Constant s' t' ∧ ∃ p, d.path = c.path ++ p ∧ pre ++ p.bare ∈ t'.node.inputs

namespace Follows

variable {isRoot : Bool} {q l : List Node} {factor root second segment : Node} {pre : Path} {a : Session}

/-- The factor is a chain that is lowered in step with the segments. -/
theorem ofSegments (htracked : f.isTracked = true) (hne : l ≠ []) (hunwrap : l.map Node.unwrap = l)
    (hfactor : ∃ span, expression factor = lowerChain expression l span)
    (h : ∀ s s' t d, a.SameNames s'.session → Abreast anchor f s s' →
      lowerSegments expression isRoot q c f s = .ok d t → d.path ≠ c.path →
      ∃ d' t', lowerSegments expression true l (.start (l.length == 1)) { f with anchor } s' = .ok d' t' ∧
        d.Similar d' ∧ Abreast anchor f t t' ∧ Constant s t ∧ Constant s' t' ∧
        ∃ p, d.path = c.path ++ p ∧ d'.path.bare = pre ++ p.bare) :
    Follows anchor f isRoot q c factor pre a := by
  intro s s' t d hnames hs hrun hgoes hgrown
  obtain ⟨span, hfactor⟩ := hfactor
  obtain ⟨d', w, t', hchain, ⟨hsimilar, hw, hst, hsw, p, hp, hp'⟩, hwt, hinput⟩ :=
    run_lowerChain (f := { f with anchor }) expression span
      (P := fun d' w => d.Similar d' ∧ Abreast anchor f t w ∧ Constant s t ∧ Constant s' w ∧
        ∃ p, d.path = c.path ++ p ∧ d'.path.bare = pre ++ p.bare)
      hs.right htracked hne hunwrap fun u hu => by
        obtain ⟨d', w, hl, hsimilar, hw, hst, huw, p, hp, hp'⟩ :=
          h s u t d (hnames.trans hu.constant.names) (hs.unmoved (.refl _ s) hu) hrun hgrown
        refine ⟨d', w, hl, hw.right, ?_, hsimilar, hw, hst, hu.constant.trans huw, p, hp, hp'⟩
        intro hnil
        rw [hnil] at hp'
        have hempty := (List.append_eq_nil_iff.mp hp'.symm).2
        rw [Path.bare, List.map_eq_nil_iff] at hempty
        exact hgrown (by rw [hp, hempty, List.append_nil])
  refine ⟨t', ?_, hw.unmoved (.refl _ t) hwt, hst, hsw.trans hwt.constant, p, hp, hp' ▸ hinput⟩
  rw [hfactor, hchain, hsimilar.isStopped, hgoes, hsimilar.type]
  rfl

/-- The first segment of a chain, as a factor of its own. -/
theorem ofRoot (htracked : f.isTracked = true) (hsegment : root.isSegment = true) (hplain : root.LooksUpPlain true) :
    Follows anchor f true [root] (.start false) root [] a := by
  refine ofSegments htracked (List.cons_ne_nil _ _) (by rw [List.map_singleton, Node.unwrap_of_isSegment hsegment]) ?_ ?_
  · cases root with
    | identifier => exact ⟨_, expression_eq _⟩
    | call => exact ⟨_, expression_eq _⟩
    | _ => cases hsegment
  · intro s s' t d _ hs hrun _
    have hsimilar : (Cursor.start false).Similar (.start true) := ⟨rfl, rfl, .rfl, rfl, rfl, rfl⟩
    have hroots : ∀ name ∈ Node.chainRoots true [root], IsPlainName name :=
      fun name hname => hplain name (by simpa [Node.chainRoots] using hname)
    obtain ⟨d', t', hrun', h, ht, hst, hst'⟩ :=
      InStep.lowerSegments InStep.expression hsimilar hroots (fun hbehind => by cases hbehind) f s s' d t hs hrun
    obtain ⟨p, hp, hp'⟩ := h.path
    exact ⟨d', t', hrun', h.similar, ht, hst, hst', p, hp, by rw [hp']; rfl⟩

theorem expression_member {left right : Node} (hleft : left.isSegment = true) (hright : right.isSegment = true)
    (lastFactor : Bool) (span : Span) :
    expression (.member left right .dot lastFactor span) = lowerChain expression [left, right] span := by
  rw [expression_eq]
  change (chainSegments _ >>= _) = _
  rw [chainSegments_ok (Node.segments_member hleft hright lastFactor span), pure_bind]

/-- The name of a class and the segment behind it, as one factor. -/
theorem ofClass (htracked : f.isTracked = true) (hroot : root.isSegment = true) (hsecond : second.isSegment = true)
    (hplain : ∀ name ∈ Node.chainRoots true [root, second], IsPlainName name) (lastFactor : Bool) (span : Span) :
    Follows anchor f true [root, second] (.start false) (.member root second .dot lastFactor span) [] a := by
  refine ofSegments htracked (List.cons_ne_nil _ _) ?_ ⟨span, expression_member hroot hsecond lastFactor span⟩ ?_
  · rw [List.map_cons, List.map_singleton, Node.unwrap_of_isSegment hroot, Node.unwrap_of_isSegment hsecond]
  · intro s s' t d _ hs hrun _
    obtain ⟨d', t', hrun', h, ht, hst, hst'⟩ :=
      InStep.lowerSegments InStep.expression (.refl (.start false)) hplain nofun f s s' d t hs hrun
    obtain ⟨p, hp, hp'⟩ := h.path
    exact ⟨d', t', hrun', h.similar, ht, hst, hst', p, hp, by rw [hp']; rfl⟩

/-- A segment behind a made-up variable that holds the value so far. -/
theorem ofSegment (htracked : f.isTracked = true) (hsegment : segment.isSegment = true)
    (hplain : segment.LooksUpPlain false) (hc : c.IsStatic) (hbehind : c.depth ≠ 0) (hanchor : c.anchor = none)
    {k : Nat} {r : SymbolRef} {x : Symbol} (hx : (sightFrom f a).Shows (temporaryName k) r x) (htype : x.type = c.type)
    (lastFactor : Bool) (span span' : Span) :
    Follows none f false [segment] c
      (.member (.identifier (.plain (temporaryName k) span)) segment .dot lastFactor span')
      [.ofName (temporaryName k) (some r) x.classScope] a := by
  refine ofSegments htracked (List.cons_ne_nil _ _) ?_ ⟨span', expression_member rfl hsegment lastFactor span'⟩ ?_
  · rw [List.map_cons, List.map_singleton, Node.unwrap_of_isSegment hsegment]
    rfl
  · intro s s' t d hnames hs hrun _
    have hshows' := hx.congr hnames
    have hshows : (sightFrom { f with anchor := none } s'.session).Shows (temporaryName k) r x :=
      ⟨hshows'.found, hshows'.symbol⟩
    obtain ⟨u, htemporary, hu⟩ := run_lowerTemporary expression span hs.right rfl hshows false
    have hsimilar : c.Similar
        { type := x.type, depth := 1, path := [.ofName (temporaryName k) (some r) x.classScope] } :=
      ⟨htype, hanchor.symm, by simpa using hbehind, hc.isLate.symm, hc.lateEntry.symm, hc.isStopped.symm⟩
    obtain ⟨d', t', hrun', h, ht, hst, hst'⟩ := InStep.lowerSegments InStep.expression hsimilar (l := [segment]) (fun name hname => hplain name (by simpa [Node.chainRoots] using hname))
      (fun _ => hbehind) f s u d t (hs.unmoved (.refl _ s) hu) hrun
    obtain ⟨p, hp, hp'⟩ := h.path
    refine ⟨d', t', ?_, h.similar, ht, hst, hu.constant.trans hst', p, hp, by rw [hp']; rfl⟩
    -- A chain of two segments is lowered one after the other.
    obtain ⟨c', w, hfirst, hend⟩ := bind_eq_ok.mp htemporary
    cases hend
    exact bind_eq_ok.mpr ⟨_, u, hfirst, hrun'⟩

end Follows

end Diglot.Lowering
