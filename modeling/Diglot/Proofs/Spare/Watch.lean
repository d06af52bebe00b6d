import Diglot.Proofs.Course.Unit
import Diglot.Proofs.Spare.Expression

/-! # Watching leaves the program alone

A watch expression is compiled by the same steps as the program, in a session that says so. All that it
may do then is to add to the watch code, the diagnostics, the log and the late-bound names
(`Session.Watched`), and, once its value is known, to declare the variable that takes it
(`Session.watchVariable`).
-/

set_option autoImplicit false

namespace Diglot

open Lowering

section
variable {α : Type} {a b : Array α}

theorem prefix_push (h : a.toList <+: b.toList) (x : α) : a.toList <+: (b.push x).toList := by
  apply h.trans
  rw [Array.toList_push]
  exact List.prefix_append _ _

/-- What is changed behind the end of the prefix is none of it. -/
theorem prefix_modify (h : a.toList <+: b.toList) {i : Nat} (hi : a.size ≤ i) (g : α → α) :
    a.toList <+: (b.modify i g).toList := by
  rw [List.prefix_iff_getElem?] at h ⊢
  intro j hj
  have hne : i ≠ j := by
    rw [Array.length_toList] at hj
    omega
  have hb := h j hj
  rw [Array.getElem?_toList] at hb ⊢
  rwa [Array.getElem?_modify, if_neg hne]

end

namespace Session

/-- Between `s` and `t` nothing was lost, and nothing was added but watch code, diagnostics, lines of
the log and late-bound names. -/
structure Watched (s t : Session) : Prop where
  same : t = { s with
    watch := t.watch, diagnostics := t.diagnostics, log := t.log
    lateVariables := t.lateVariables, lateFunctions := t.lateFunctions }
  watch : s.watch.toList <+: t.watch.toList
  diagnostics : s.diagnostics.toList <+: t.diagnostics.toList
  log : s.log.toList <+: t.log.toList
  lateVariables : s.lateVariables.toList <+: t.lateVariables.toList
  lateFunctions : s.lateFunctions.toList <+: t.lateFunctions.toList

theorem Watched.refl (s : Session) : s.Watched s :=
  ⟨rfl, List.prefix_refl _, List.prefix_refl _, List.prefix_refl _, List.prefix_refl _,
    List.prefix_refl _⟩

theorem Watched.isWatching {s t : Session} (h : s.Watched t) : t.isWatching = s.isWatching := by
  rw [h.same]

theorem Watched.block? {s t : Session} (h : s.Watched t) (id : Nat) : t.block? id = s.block? id := by
  rw [h.same]
  rfl

/-- While a session is watching, the code of an expression adds nothing else. -/
theorem endures_watched {s : Session} (hs : s.isWatching = true) (block : Nat) :
    Endures s.Watched s.lateVariables.size block := by
  refine ⟨fun t r h => ?_, fun t d h => ?_, fun t i span _ h => ?_, fun t e h => ?_, fun t i g hi h => ?_,
    fun t e h => ?_, fun t h => ?_⟩
  · exact ⟨by rw [h.same], h.watch, h.diagnostics, prefix_push h.log r, h.lateVariables,
      h.lateFunctions⟩
  · exact ⟨by rw [h.same], h.watch, prefix_push h.diagnostics d, h.log, h.lateVariables,
      h.lateFunctions⟩
  · have hemit : t.emit block i span = { t with watch := t.watch.push i } := by
      simp [emit, h.isWatching, hs]
    rw [hemit]
    exact ⟨by rw [h.same], prefix_push h.watch i, h.diagnostics, h.log, h.lateVariables,
      h.lateFunctions⟩
  · exact ⟨by rw [h.same], h.watch, h.diagnostics, h.log, prefix_push h.lateVariables e,
      h.lateFunctions⟩
  · exact ⟨by rw [h.same], h.watch, h.diagnostics, h.log, prefix_modify h.lateVariables hi g,
      h.lateFunctions⟩
  · exact ⟨by rw [h.same], h.watch, h.diagnostics, h.log, h.lateVariables,
      prefix_push h.lateFunctions e⟩
  · simpa using h.lateVariables.length_le

/-- The variable that takes the value of the next watch expression of a block. -/
def watchVariable (s : Session) (id : Nat) (b : Block) : Symbol :=
  { symbolOf { name := "%watch_" ++ toString s.counters.temporaries, type := .var } s
      (s.watchSite id b) .watch with
    position := b.symbols.size }

/-- The session with the variable of the next watch expression. -/
def declareWatch (s : Session) (id : Nat) (b : Block) : Session :=
  { s.enterLocal id (s.watchVariable id b) with
    counters :=
      { s.counters with
        watch := s.counters.watch + 1, temporaries := s.counters.temporaries + 1 } }

theorem Watched.declareWatch {s t : Session} (h : s.Watched t) (id : Nat) (b : Block) :
    (s.declareWatch id b).Watched
      { t.enterLocal id (s.watchVariable id b) with counters := (s.declareWatch id b).counters } := by
  refine ⟨?_, h.watch, h.diagnostics, h.log, h.lateVariables, h.lateFunctions⟩
  have hblocks : t.blocks = s.blocks := by rw [h.same]
  unfold Session.declareWatch enterLocal modifyBlock
  rw [hblocks]
  exact congrArg (fun u : Session => { u with
    blocks := s.blocks.modify id fun c => { c with symbols := c.symbols.append (s.watchVariable id b) }
    counters := (s.declareWatch id b).counters }) h.same

/-- The session is not watching any more. -/
theorem Watched.settle {s t : Session} {on : Bool} (h : { s with isWatching := on }.Watched t) :
    { s with isWatching := false }.Watched { t with isWatching := false } :=
  ⟨congrArg (fun u : Session => { u with isWatching := false }) h.same, h.watch, h.diagnostics,
    h.log, h.lateVariables, h.lateFunctions⟩

/-- The instructions that end a watch expression. -/
def watchEnd (x : Symbol) : List Instruction :=
  [.binary .popw (.ofSymbol x) (.cls x.classScope), .bare .retcn]

end Session

namespace Lowering

/-- Declares the variable that takes the value of a watch expression. -/
def takeWatch : Lower Symbol := do
  let name ← nextTemporary "%watch_"
  getSymbol (← allocate { name, type := .var })

/-- Ends a watch expression whose value goes to the given variable. -/
def endWatch (x : Symbol) : Lower Unit := do
  let _ ← emitPopw x
  let _ ← emit (.bare .retcn) .nil

theorem lowerWatch_eq (node : Node) :
    lowerWatch node = (do
      let entry ← pc
      let _ ← expression node
      let symbol ← takeWatch
      endWatch symbol
      return entry) := by
  simp only [lowerWatch, takeWatch, endWatch, bind_assoc, pure_bind]

theorem emitWith_watching {f : Frame} {t : State} (hw : t.session.isWatching = true) (i : Instruction)
    (span : Span) (debug : Option DebugRecord) :
    ∃ p log, t.session.log.toList <+: log.toList ∧ emitWith i span debug f t =
      .ok p { t with
        session := { t.session with watch := t.session.watch.push { i with debug }, log } } := by
  let p := (t.session.stream f.block).size
  refine ⟨p, (t.session.noteEmission f p { i with debug }).log, ?_, ?_⟩
  · unfold Session.noteEmission
    split
    · exact prefix_push (List.prefix_refl _) _
    · exact List.prefix_refl _
  · rw [run_emitWith i span debug f t (.inl hw)]
    unfold Session.noteEmission
    split <;> simp [Session.emit, Session.note, hw, p]

theorem run_appendLocal_at {f : Frame} {t : State} {b : Block}
    (hb : t.session.block? f.block = some b) (x : Symbol) :
    appendLocal x f t = .ok ⟨.block f.block, b.symbols.size⟩
      { t with session := t.session.enterLocal f.block x } := by
  simp [appendLocal, hb, Session.enterLocal]

theorem run_allocate_watching {f : Frame} {t : State} {b : Block} (hw : t.session.isWatching = true)
    (hb : t.session.block? f.block = some b) (d : Declaration) :
    allocate d f t =
      let x := symbolOf d t.session f .watch
      let counters := countersAfter d t.session .watch x.size
      .ok ⟨.block f.block, b.symbols.size⟩
        { t with session := { t.session with counters }.enterLocal f.block x } := by
  have hbucket : bucketOf t.session.isWatching f.scope d.isStatic = .watch := by simp [bucketOf, hw]
  simp only [allocate, run_bind, run_read, run_getSession, run_modifySession, hbucket]
  apply run_appendLocal_at
  exact hb

variable {s : Session} {id : Nat} {b : Block}

/-- The variable of the watch expression is declared. -/
theorem run_takeWatch (hb : s.block? id = some b) {t : State}
    (ht : { s with isWatching := true }.Watched t.session) :
    takeWatch (s.watchSite id b) t =
      .ok (s.watchVariable id b) { t with
        session := { t.session.enterLocal id (s.watchVariable id b) with
          counters := (s.declareWatch id b).counters } } := by
  have hcounters : t.session.counters = s.counters := by rw [ht.same]
  let counters := { s.counters with temporaries := s.counters.temporaries + 1 }
  let u : State := { t with session := { t.session with counters } }
  let d : Declaration := { name := "%watch_" ++ toString s.counters.temporaries, type := .var }
  have hname : nextTemporary "%watch_" (s.watchSite id b) t = .ok d.name u := by
    simp only [nextTemporary, run_bind, run_getSession, run_modifySession, run_pure, hcounters]
    rfl
  have hwu : u.session.isWatching = true := ht.isWatching
  have hbu : u.session.block? (s.watchSite id b).block = some b := (ht.block? id).trans hb
  have hdeclare := run_allocate_watching hwu hbu d
  unfold takeWatch
  rw [run_bind, hname]
  show (allocate d >>= getSymbol) (s.watchSite id b) u = _
  rw [run_bind, hdeclare]
  have hbt (counters : Counters) : ({ t.session with counters } : Session).block? id = some b := hbu
  have hsite : (s.watchSite id b).block = id := rfl
  simp only [run_getSymbol, Session.symbol?, Session.enterLocal, Session.block?_modifyBlock, hsite,
    if_true]
  simp only [u, hbt, Option.map_some, Option.bind_some, SymbolTable.get?_append_size]
  rfl

theorem run_endWatch {f : Frame} {t : State} (hw : t.session.isWatching = true) (x : Symbol) :
    ∃ log, t.session.log.toList <+: log.toList ∧ endWatch x f t = .ok () { t with
      session := { t.session with
        watch := t.session.watch ++ (Session.watchEnd x).toArray, log } } := by
  let popw : Instruction := .binary .popw (.ofSymbol x) (.cls x.classScope)
  obtain ⟨p, log, hlog, hpop⟩ := emitWith_watching (f := f) hw popw .nil none
  let u : State := { t with session := { t.session with watch := t.session.watch.push popw, log } }
  have hpopw : emitPopw x f t = .ok p u := hpop
  have hwu : u.session.isWatching = true := hw
  obtain ⟨q, log', hlog', hret⟩ := emitWith_watching (f := f) hwu (.bare .retcn) .nil none
  have hdebug (o : Options) (n : Nat) : debugRecord? o .nil [] n = none := by simp [debugRecord?]
  have hretcn : emit (.bare .retcn) .nil f u = emitWith (.bare .retcn) .nil none f u := by
    simp only [emit, emitStepping, run_bind, run_pc f u (.inl hwu), run_getSession, hdebug]
  refine ⟨log', hlog.trans hlog', ?_⟩
  have hcode : u.session.watch.push (.bare .retcn) =
      t.session.watch ++ (Session.watchEnd x).toArray := by
    rw [← Array.toList_inj]
    simp [u, popw, Session.watchEnd]
  rw [← hcode]
  simp only [endWatch, run_bind, hpopw, hretcn, hret, run_pure]
  rfl

end Lowering

namespace Session

/-- Watching leaves the program alone. If no block has the index, nothing happens at all. Otherwise the
call adds to the watch code, the diagnostics, the log and the late-bound names; and if it succeeds, it
tells where its code begins, adds one variable to the block, and ends its code with the instructions
that take the value and return. -/
theorem watchExpression_spares (s : Session) (id : Nat) (node : Node) :
    match s.block? id, s.watchExpression id node with
    | none, r => r = (.error (.unknownBlock id), s)
    | some b, (.ok entry, t) =>
      entry = s.watch.size ∧ { s.declareWatch id b with isWatching := false }.Watched t ∧
        ∃ value, t.watch.toList = s.watch.toList ++ value ++ watchEnd (s.watchVariable id b)
    | some _, (.error _, t) => { s with isWatching := false }.Watched t := by
  cases hb : s.block? id with
  | none => simp [watchExpression, hb]
  | some b =>
    let f := s.watchSite id b
    let start : State := { session := { s with isWatching := true } }
    have hpc : pc f start = .ok s.watch.size start := run_pc f start (.inl rfl)
    have hvalue := Sparing.expression (f := f) node (endures_watched (s := start.session) rfl id) start
      (.refl _)
    have hlower : lowerWatch node f start = (do
        let _ ← expression node
        let symbol ← takeWatch
        endWatch symbol
        return s.watch.size) f start := by
      rw [lowerWatch_eq, run_bind, hpc]
    rw [watchExpression_eq hb, hlower, run_bind]
    cases hrun : expression node f start with
    | error e t =>
      rw [hrun] at hvalue
      exact hvalue.1.settle
    | ok type t =>
      rw [hrun] at hvalue
      have hs : start.session.Watched t.session := hvalue.1
      let x := s.watchVariable id b
      let u : State := { t with
        session := { t.session.enterLocal id x with counters := (s.declareWatch id b).counters } }
      have hu : { s.declareWatch id b with isWatching := true }.Watched u.session :=
        hs.declareWatch id b
      have htake : takeWatch f t = .ok x u := run_takeWatch hb hs
      obtain ⟨log, hlog, hend⟩ := run_endWatch (f := f) hu.isWatching x
      dsimp only
      rw [run_bind, htake]
      dsimp only
      rw [run_bind, hend]
      obtain ⟨value, hcode⟩ := hu.watch
      have hwatch : u.session.watch.toList = s.watch.toList ++ value := hcode.symm
      have hwatched : Watched { s.declareWatch id b with isWatching := true } { u.session with
          watch := u.session.watch ++ (watchEnd x).toArray, log } := by
        refine ⟨congrArg (fun v : Session => { v with
          watch := u.session.watch ++ (watchEnd x).toArray, log }) hu.same, ?_, hu.diagnostics,
          hu.log.trans hlog, hu.lateVariables, hu.lateFunctions⟩
        rw [Array.toList_append, hwatch, List.append_assoc]
        exact List.prefix_append _ _
      refine ⟨rfl, hwatched.settle, value, ?_⟩
      rw [Array.toList_append, hwatch]

end Session

/-! ## What a session had before a unit

`g.Retains s`: everything that session `g` has is still in `s`, with the same values, in the course of
compiling a further unit. Only the first block gets more: one child, the block of the unit, and the
mirrors of static members of new classes.

The lemmas say which changes leave it so: any change of new blocks, new classes and new procedures, and
what is put behind the other entries of a table.
-/

namespace Session

/-- The symbol mirrors, in the first block, a static member of a class from the given index on. -/
def Mirrors (s : Session) (known : Nat) (m : Symbol) : Prop :=
  ∃ cls c x, known ≤ cls ∧ s.classes.get? cls = some c ∧ x ∈ c.symbols.symbols ∧
    x.isStatic = true ∧ m = { x with block := 0 }

/-- The block of the given index has not changed, but that the first block has the next block as a new
child and may have new symbols, which all mirror static members. -/
def KeepsBlock (g s : Session) (id : Nat) (b : Block) : Prop :=
  ∃ mirrors : List Symbol, (∀ m ∈ mirrors, s.Mirrors g.classes.size m) ∧ (id ≠ 0 → mirrors = []) ∧
    s.block? id = some { b with
      children := if id = 0 then b.children.push g.blocks.size else b.children
      symbols := mirrors.foldl SymbolTable.append b.symbols }

/-- A further unit is being compiled, and what `g` had before is still there. -/
structure Retains (g s : Session) : Prop where
  isWatching : s.isWatching = false
  size : g.blocks.size < s.blocks.size
  blocks : ∀ id b, g.block? id = some b → g.KeepsBlock s id b
  classes : g.classes.classes.toList <+: s.classes.classes.toList
  procedures : g.procedures.procedures.toList <+: s.procedures.procedures.toList
  lateVariables : g.lateVariables.toList <+: s.lateVariables.toList
  lateFunctions : g.lateFunctions.toList <+: s.lateFunctions.toList
  diagnostics : g.diagnostics.toList <+: s.diagnostics.toList
  debugMap : g.debugMap.entries.Sublist s.debugMap.entries ∧
    ∀ e ∈ s.debugMap.entries, e ∈ g.debugMap.entries ∨ g.blocks.size ≤ e.block

namespace Retains

variable {g s : Session}

/-! ### Blocks -/

theorem congr (h : g.Retains s) {t : Session} (hb : t.blocks = s.blocks) (hc : t.classes = s.classes)
    (hp : t.procedures = s.procedures) (hv : t.lateVariables = s.lateVariables)
    (hf : t.lateFunctions = s.lateFunctions) (hd : t.diagnostics = s.diagnostics)
    (hm : t.debugMap = s.debugMap) (hw : t.isWatching = s.isWatching) : g.Retains t := by
  have hblock (id : Nat) : t.block? id = s.block? id := by rw [block?, hb, block?]
  refine ⟨hw ▸ h.isWatching, hb ▸ h.size, fun id b hid => ?_, hc ▸ h.classes, hp ▸ h.procedures,
    hv ▸ h.lateVariables, hf ▸ h.lateFunctions, hd ▸ h.diagnostics, hm ▸ h.debugMap⟩
  unfold KeepsBlock Mirrors
  rw [hblock, hc]
  exact h.blocks id b hid

theorem lt_of_block? {id : Nat} {b : Block} (hb : g.block? id = some b) : id < g.blocks.size :=
  (Array.getElem?_eq_some_iff.mp hb).1

/-- A new block may be changed in any way. -/
theorem modifyBlock (h : g.Retains s) {id : Nat} (hid : g.blocks.size ≤ id) (k : Block → Block) :
    g.Retains (s.modifyBlock id k) := by
  refine ⟨h.isWatching, ?_, fun i b hb => ?_, h.classes, h.procedures, h.lateVariables,
    h.lateFunctions, h.diagnostics, h.debugMap⟩
  · rw [size_blocks_modifyBlock]
    exact h.size
  · have hne : id ≠ i := by
      have := lt_of_block? hb
      omega
    obtain ⟨mirrors, hm, hz, hs⟩ := h.blocks i b hb
    exact ⟨mirrors, hm, hz, by rw [block?_modifyBlock, if_neg hne, hs]⟩

theorem pushBlock (h : g.Retains s) (b : Block) :
    g.Retains { s with blocks := s.blocks.push b } := by
  refine ⟨h.isWatching, ?_, fun i c hc => ?_, h.classes, h.procedures, h.lateVariables,
    h.lateFunctions, h.diagnostics, h.debugMap⟩
  · have := h.size
    simp only [Array.size_push]
    omega
  · have hne : i ≠ s.blocks.size := by
      have := lt_of_block? hc
      have := h.size
      omega
    obtain ⟨mirrors, hm, hz, hs⟩ := h.blocks i c hc
    refine ⟨mirrors, hm, hz, ?_⟩
    simp only [block?, Array.getElem?_push, if_neg hne]
    exact hs

/-- A new block may get blocks below it. -/
theorem addBlock (h : g.Retains s) {parent : Nat} (hp : g.blocks.size ≤ parent) (kind : BlockKind)
    (dialect : Dialect) : g.Retains (s.addBlock kind dialect (some parent)) :=
  (h.pushBlock { id := s.blocks.size, kind, dialect, parent := some parent }).modifyBlock hp _

/-! ### Classes and procedures -/

theorem size_classes (h : g.Retains s) : g.classes.size ≤ s.classes.size := by
  simpa [ClassTable.size] using h.classes.length_le

theorem size_procedures (h : g.Retains s) : g.procedures.size ≤ s.procedures.size := by
  simpa [ProcedureTable.size] using h.procedures.length_le

theorem withClasses (h : g.Retains s) {classes : ClassTable}
    (hkept : g.classes.classes.toList <+: classes.classes.toList)
    (hsymbols : ∀ cls c, s.classes.get? cls = some c →
      ∃ d, classes.get? cls = some d ∧ ∀ x ∈ c.symbols.symbols, x ∈ d.symbols.symbols) :
    g.Retains { s with classes } := by
  refine ⟨h.isWatching, h.size, fun id b hb => ?_, hkept, h.procedures, h.lateVariables,
    h.lateFunctions, h.diagnostics, h.debugMap⟩
  obtain ⟨mirrors, hm, hz, hs⟩ := h.blocks id b hb
  refine ⟨mirrors, fun m hmem => ?_, hz, hs⟩
  obtain ⟨cls, c, x, hcls, hc, hx, hstatic, rfl⟩ := hm m hmem
  obtain ⟨d, hd, hsub⟩ := hsymbols cls c hc
  exact ⟨cls, d, x, hcls, hd, hsub x hx, hstatic, rfl⟩

/-- A new class may be changed in any way that loses no member. -/
theorem modifyClass (h : g.Retains s) {cls : Nat} (hcls : g.classes.size ≤ cls) {k : Class → Class}
    (hk : ∀ c, ∀ x ∈ c.symbols.symbols, x ∈ (k c).symbols.symbols) :
    g.Retains { s with classes := s.classes.modify cls k } := by
  refine h.withClasses (prefix_modify h.classes hcls k) fun other c hc => ?_
  by_cases heq : cls = other
  · subst heq
    exact ⟨k c, by rw [ClassTable.get?_modify, if_pos rfl, hc, Option.map_some], hk c⟩
  · exact ⟨c, by rw [ClassTable.get?_modify, if_neg heq, hc], fun _ hx => hx⟩

theorem appendClass (h : g.Retains s) {c : Class} {classes : ClassTable}
    (happ : s.classes.append? c = some classes) : g.Retains { s with classes } := by
  refine h.withClasses ?_ fun cls d hd => ⟨d, ?_, fun _ hx => hx⟩
  · rw [← (ClassTable.append?_eq_some.mp happ).2]
    exact prefix_push h.classes c
  · have hlt : cls < s.classes.size := (Array.getElem?_eq_some_iff.mp hd).1
    rw [ClassTable.get?_append? happ, if_neg (Nat.ne_of_lt hlt), hd]

theorem withProcedures (h : g.Retains s) {procedures : ProcedureTable}
    (hkept : g.procedures.procedures.toList <+: procedures.procedures.toList) :
    g.Retains { s with procedures } :=
  ⟨h.isWatching, h.size, h.blocks, h.classes, hkept, h.lateVariables, h.lateFunctions, h.diagnostics,
    h.debugMap⟩

end Retains

/-- The procedure is none of those that the session has. -/
def IsNewProcedure (g : Session) (r : ProcRef) : Prop :=
  match r.classScope with
  | some cls => g.classes.size ≤ cls
  | none => g.procedures.size ≤ r.index

namespace Retains

variable {g s : Session}

theorem modifyProcedure (h : g.Retains s) {r : ProcRef} (hr : g.IsNewProcedure r)
    (k : Procedure → Procedure) : g.Retains (s.modifyProcedure r k) := by
  unfold IsNewProcedure at hr
  unfold Session.modifyProcedure
  split
  · next hnone =>
    rw [hnone] at hr
    exact h.withProcedures (prefix_modify h.procedures hr k)
  · next cls hsome =>
    rw [hsome] at hr
    exact h.modifyClass hr fun _ _ hx => hx

/-! ### Members -/

theorem appendSymbol (h : g.Retains s) {cls : Nat} (hcls : g.classes.size ≤ cls) (x : Symbol) :
    g.Retains { s with classes := s.classes.appendSymbol cls x } := by
  refine h.modifyClass hcls fun c y hy => ?_
  simp [SymbolTable.append, hy]

/-- A static member of a new class is mirrored in the first block. -/
theorem enterMember (h : g.Retains s) {cls : Nat} (hcls : g.classes.size ≤ cls)
    (hsome : (s.classes.get? cls).isSome) (x : Symbol) : g.Retains (s.enterMember cls x) := by
  have hclass := h.appendSymbol hcls x
  unfold Session.enterMember
  split
  · next hstatic =>
    obtain ⟨c, hc⟩ := Option.isSome_iff_exists.mp hsome
    refine ⟨hclass.isWatching, ?_, fun id b hb => ?_, hclass.classes, hclass.procedures,
      hclass.lateVariables, hclass.lateFunctions, hclass.diagnostics, hclass.debugMap⟩
    · rw [size_blocks_modifyBlock]
      exact hclass.size
    · obtain ⟨mirrors, hm, hz, hs⟩ := hclass.blocks id b hb
      by_cases hid : 0 = id
      · subst hid
        let y : Symbol := { x with position := c.symbols.size }
        refine ⟨mirrors ++ [{ y with block := 0 }], fun m hmem => ?_, fun h0 => absurd rfl h0, ?_⟩
        · rcases List.mem_append.mp hmem with hmem | hmem
          · exact hm m hmem
          · rw [List.mem_singleton.mp hmem]
            have hget : (s.classes.appendSymbol cls x).get? cls =
                some { c with symbols := c.symbols.append x } := by
              rw [ClassTable.appendSymbol, ClassTable.get?_modify, if_pos rfl, hc, Option.map_some]
            refine ⟨cls, _, y, hcls, hget, ?_, hstatic, rfl⟩
            simp [SymbolTable.append, SymbolTable.size, y]
        · rw [block?_modifyBlock, if_pos rfl, hs, List.foldl_append]
          rfl
      · refine ⟨mirrors, hm, hz, ?_⟩
        rw [block?_modifyBlock, if_neg hid, hs]
  · exact hclass

end Retains

end Session

/-! ### The debug map -/

namespace DebugMap

/-- An entry for another place is put between the others. -/
theorem sublist_insert {e : DebugEntry} {l known : List DebugEntry} (h : known.Sublist l)
    (hne : ∀ f ∈ known, ¬ (e.block = f.block ∧ e.pc = f.pc)) : known.Sublist (insert e l) := by
  induction l generalizing known with
  | nil => exact h.trans (List.nil_sublist _)
  | cons f rest ih =>
    unfold insert
    split
    · exact h.trans (List.sublist_cons_self _ _)
    · split
      · next hsame =>
        -- The entry that gives way is at the same place, so that it is not a known one.
        cases h with
        | cons _ h => exact h.trans (List.sublist_cons_self _ _)
        | cons_cons _ h => exact absurd hsame (hne f (List.mem_cons_self ..))
      · cases h with
        | cons _ h => exact (ih h hne).trans (List.sublist_cons_self _ _)
        | cons_cons _ h => exact (ih h fun g hg => hne g (List.mem_cons_of_mem f hg)).cons_cons f

end DebugMap

namespace Session

variable {g s : Session}

theorem Retains.record (h : g.Retains s) (hmap : ∀ e ∈ g.debugMap.entries, e.block < g.blocks.size)
    {block : Nat} (hblock : g.blocks.size ≤ block) (pc : Nat) (span : Span) :
    g.Retains { s with debugMap := s.debugMap.record block pc span } := by
  refine ⟨h.isWatching, h.size, h.blocks, h.classes, h.procedures, h.lateVariables, h.lateFunctions,
    h.diagnostics, ?_⟩
  unfold DebugMap.record
  split
  · refine ⟨DebugMap.sublist_insert h.debugMap.1 fun e he hsame => ?_, fun e he => ?_⟩
    · have hlt := hmap e he
      have heq : block = e.block := hsame.1
      omega
    · rcases DebugMap.mem_insert he with rfl | hold
      · exact .inr hblock
      · exact h.debugMap.2 e hold
  · exact h.debugMap

/-- What a frame of the new unit lowers goes to new blocks and, outside of procedures, to new classes. -/
structure IsApart (g : Session) (f : Frame) : Prop where
  block : g.blocks.size ≤ f.block
  cls : f.scope.procedure = none → ∀ cls, f.scope.classScope = some cls → g.classes.size ≤ cls
  debugMap : ∀ e ∈ g.debugMap.entries, e.block < g.blocks.size

theorem IsApart.flags {f h : Frame} (hf : g.IsApart f) (hsite : h.site = f.site) : g.IsApart h := by
  have hblock := congrArg Frame.block hsite
  have hscope := congrArg Frame.scope hsite
  change h.block = f.block at hblock
  change h.scope = f.scope at hscope
  exact ⟨hblock ▸ hf.block, hscope ▸ hf.cls, hf.debugMap⟩

/-- What the new unit emits changes nothing that was there. -/
theorem Retains.emit {f : Frame} (h : g.Retains s) (hf : g.IsApart f) (i : Instruction) (span : Span) :
    g.Retains (s.emit f.block i span) := by
  unfold Session.emit
  rw [if_neg (by simp [h.isWatching])]
  exact (h.record hf.debugMap hf.block _ span).modifyBlock hf.block _

/-- The code of an expression of the new unit changes nothing that was there. -/
theorem endures_retains {f : Frame} (hf : g.IsApart f) :
    Endures g.Retains g.lateVariables.size f.block := by
  refine ⟨fun t r h => ?_, fun t d h => ?_, fun t i span _ h => ?_, fun t e h => ?_, fun t i k hi h => ?_,
    fun t e h => ?_, fun t h => ?_⟩
  · exact h.congr rfl rfl rfl rfl rfl rfl rfl rfl
  · exact ⟨h.isWatching, h.size, h.blocks, h.classes, h.procedures, h.lateVariables, h.lateFunctions,
      prefix_push h.diagnostics d, h.debugMap⟩
  · exact h.emit hf i span
  · exact ⟨h.isWatching, h.size, h.blocks, h.classes, h.procedures, prefix_push h.lateVariables e,
      h.lateFunctions, h.diagnostics, h.debugMap⟩
  · exact ⟨h.isWatching, h.size, h.blocks, h.classes, h.procedures, prefix_modify h.lateVariables hi k,
      h.lateFunctions, h.diagnostics, h.debugMap⟩
  · exact ⟨h.isWatching, h.size, h.blocks, h.classes, h.procedures, h.lateVariables,
      prefix_push h.lateFunctions e, h.diagnostics, h.debugMap⟩
  · simpa using h.lateVariables.length_le

end Session

end Diglot
