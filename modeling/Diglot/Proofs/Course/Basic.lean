import Diglot.Proofs.Course.Unit
import Diglot.Proofs.Flow.Stream
import Diglot.Proofs.Tables.Tidy

/-! # The course of a run

`Course D P f s m` lists what a run of `m` from frame `f` and state `s` is put together from: steps that
read, steps that change the session in one of few ways, and inner frames for language blocks, bodies
of procedures and classes. What holds of every run is proved by induction on its course.

* `P` is what the emitted instructions satisfy. Jumps are patched and frames are opened only if every
  instruction satisfies `P`.
* `D` tells that the run starts in order. If it does, no step of the course is a defect.
* `Ready w f s`: the session is tidy, the frame stands in it, and no node that is being worked on is
  part of the program yet.
* `Course.safe`: in order, a run ends ready or halts with a tidy session.
* `Composed D P m`: every run of `m` that starts in order has a course.
-/

set_option autoImplicit false

namespace Diglot

/-- Compilation stops where the issue is found. -/
def Issue.isHalting : Issue → Bool
  | .invalidIndirection | .nonIdentifierSegment | .returnInConstructor | .unknownType
  | .imperativeConstructInAssociative | .classOutsideAssociative | .breakOutsideLoop
  | .duplicateClass | .invalidAssignmentTarget | .unexpectedStatement => true
  | _ => false

theorem Session.Grows.size_le {s t : Session} (h : s.Grows t) : s.blocks.size ≤ t.blocks.size := by
  refine Nat.le_of_not_lt fun hid => ?_
  have hhead := Session.header?_of_block? (Array.getElem?_eq_getElem hid)
  obtain ⟨hd, ht, _⟩ := h.keeps _ _ hhead
  exact absurd (Session.lt_of_header? ht) (Nat.lt_irrefl _)

theorem Session.Grows.block?_isSome {s t : Session} (h : s.Grows t) {id : Nat}
    (hid : (s.block? id).isSome) : (t.block? id).isSome := by
  obtain ⟨b, hb⟩ := Option.isSome_iff_exists.mp hid
  obtain ⟨hd, ht, _⟩ := h.keeps _ _ (Session.header?_of_block? hb)
  rw [← Session.header?_isSome, ht]
  rfl

namespace Lowering

/-! ## States that are ready -/

/-- The node is not part of the program yet, and its block exists. -/
def IsOpen (n : GraphNode) (s : Session) : Prop := n.isSealed = false ∧ n.block < s.blocks.size

/-- The nodes that are being worked on are open. -/
def State.Neat (s : State) : Prop := ∀ n, n = s.node ∨ n ∈ s.held → IsOpen n s.session

/-- Lowering can go on: the tables are tidy, the frame stands in them, and the nodes are open. `w` tells
whether the code goes to the watch stream. -/
structure Ready (w : Bool) (f : Frame) (s : State) : Prop where
  tidy : s.session.Tidy
  stands : f.Stands s.session
  neat : s.Neat
  mode : s.session.isWatching = w

variable {w : Bool}

theorem State.Neat.grows {s : State} (h : s.Neat) {t : Session} (hst : s.session.Grows t) :
    ({ s with session := t } : State).Neat :=
  fun n hn => ⟨(h n hn).1, Nat.lt_of_lt_of_le (h n hn).2 hst.size_le⟩

/-- The state in which an inner frame starts has no nodes to work on. -/
theorem neat_start {s : Session} (h : 0 < s.blocks.size) : ({ session := s } : State).Neat := by
  rintro n (rfl | hn)
  · exact ⟨rfl, h⟩
  · cases hn

theorem Ready.canEmit {f : Frame} {s : State} (h : Ready w f s) : s.session.CanEmit f.block :=
  .inr h.stands.block?_isSome

theorem Ready.site {f g : Frame} {s : State} (h : Ready w f s) (hsite : g.site = f.site) :
    Ready w g s := by
  obtain ⟨hblock, hscope⟩ : g.block = f.block ∧ g.scope = f.scope :=
    ⟨(congrArg Frame.block hsite : g.site.block = f.site.block),
      (congrArg Frame.scope hsite : g.site.scope = f.site.scope)⟩
  refine ⟨h.tidy, ⟨⟨?_, ?_⟩, ?_⟩, h.neat, h.mode⟩
  · rw [hblock, hscope]
    exact h.stands.placed.block
  · rw [hscope]
    exact h.stands.placed.body
  · rw [hscope]
    exact h.stands.owner

/-- A change of the session leaves a state that is ready. -/
theorem Ready.change {K : OpCode → Prop} {f : Frame} {s : State} (h : Ready w f s) {t : Session}
    (hc : Change K f s.session t) : Ready w f { s with session := t } :=
  ⟨h.tidy.change h.stands.placed hc, h.stands.grows hc.grows, h.neat.grows hc.grows,
    hc.isWatching_eq.trans h.mode⟩

/-! ## Courses -/

/-- Entries that neither lookups nor code depend on. -/
inductive Quiet (s : Session) : Session → Prop where
  | temporary :
      Quiet s { s with counters := { s.counters with temporaries := s.counters.temporaries + 1 } }
  | uid : Quiet s { s with nextUid := s.nextUid + 1 }
  | commit (node : GraphNode) : (s.block? node.block).isSome →
      Quiet s
        (s.modifyBlock node.block fun b =>
          { b with graph := b.graph.push { node with isSealed := true } })
  | lateVariable (entry : LateVariable) :
      Quiet s { s with lateVariables := s.lateVariables.push entry }
  | lateMember (i : Nat) (name : String) :
      Quiet s
        { s with
          lateVariables := s.lateVariables.modify i fun e =>
            { e with members := e.members ++ [name] } }
  | lateFunction (entry : LateFunction) :
      Quiet s { s with lateFunctions := s.lateFunctions.push entry }

theorem Quiet.change {K : OpCode → Prop} {f : Frame} {s t : Session} (h : Quiet s t) :
    Change K f s t := by
  cases h with
  | temporary => exact .temporary
  | uid => exact .uid
  | commit node hb => exact .commit node hb
  | lateVariable entry => exact .lateVariable entry
  | lateMember i name => exact .lateMember i name
  | lateFunction entry => exact .lateFunction entry

/-- What a run is put together from. -/
inductive Course (D : Prop) (P : Instruction → Prop) :
    {α : Type} → Frame → State → Lower α → Prop where
  | pure {α : Type} {f : Frame} {s : State} (a : α) : Course D P f s (Pure.pure a)
  | bind {α β : Type} {f : Frame} {s : State} {m : Lower α} {k : α → Lower β} : Course D P f s m →
      (∀ a t, m f s = .ok a t → Course D P f t (k a)) → Course D P f s (m >>= k)
  | read {f : Frame} {s : State} : Course D P f s (MonadReader.read : Lower Frame)
  | get {f : Frame} {s : State} : Course D P f s (MonadState.get : Lower State)
  | modify {f : Frame} {s : State} {g : State → State} : (g s).session = s.session →
      (D → s.Neat → (g s).Neat) → Course D P f s (modify g : Lower Unit)
  | defect {α : Type} {f : Frame} {s : State} (d : Defect) : ¬ D →
      Course D P f s (Lowering.defect d : Lower α)
  /-- Parts of a statement may be lowered with other flags. -/
  | withReader {α : Type} {f : Frame} {s : State} {g : Frame → Frame} {m : Lower α} :
      (g f).site = f.site → Course D P (g f) s m →
      Course D P f s (MonadWithReader.withReader g m : Lower α)
  | note {f : Frame} {s : State} (level : LogLevel) (topic : LogTopic) (message : String) :
      Course D P f s (note level topic message)
  | report {f : Frame} {s : State} {issue : Issue} (message : String) (span : Span) :
      issue.isHalting = false → Course D P f s (report issue message span)
  | halt {α : Type} {f : Frame} {s : State} {issue : Issue} (message : String) (span : Span) :
      issue.isHalting = true → Course D P f s (Lowering.halt issue message span : Lower α)
  | emitWith {f : Frame} {s : State} {i : Instruction} (span : Span) (debug : Option DebugRecord) :
      P { i with debug } → Course D P f s (emitWith i span debug)
  | patch {f : Frame} {s : State} {pending target : Nat} : (∀ i, P i) →
      (D → ∃ i j, (s.session.stream f.block)[pending]? = some i ∧ i.patch target = .ok j) →
      Course D P f s (patch pending target)
  | allocate {f : Frame} {s : State} (d : Declaration) : Course D P f s (allocate d)
  | record {f : Frame} {s : State} {g : Session → Session} : Quiet s.session (g s.session) →
      Course D P f s (modifySession g)
  | block {f : Frame} {s : State} (dialect : Dialect) (body : List Node) : (∀ i, P i) →
      ((s.session.block? f.block).isSome →
        Course D P (unitFrame s.session.blocks.size f.scope dialect body)
          { session := s.session.openBlock f dialect } (lowerCode body)) →
      Course D P f s (lowerInner dialect body)
  /-- The parameters of a procedure are declared before its code is lowered. -/
  | procedure {f : Frame} {s : State} (fn : Function) (p : Procedure) : (∀ i, P i) →
      p.entry = none →
      ((s.session.block? f.block).isSome →
        (∀ cls, Session.ownerClass f.scope = some cls → (s.session.classes.get? cls).isSome) →
        ∀ t, declareParams p.args (bodyUnit f s.session fn.body)
            { session :=
                s.session.openProcedure f p (bodyMessage fn.name s.session.blocks.size) } =
            .ok () t →
          Course D P (bodyUnit f s.session fn.body) t (lowerCode fn.body)) →
      Course D P f s (lowerBody statement fn p)
  | addClass {f : Frame} {s : State} (c : Class) {classes : ClassTable} : (∀ i, P i) →
      f.scope.procedure = none → c.symbols = {} → c.procedures = {} →
      (D → ∀ b, c.base = some b → b < s.session.classes.size) →
      s.session.classes.append? c = some classes →
      Course D P f s (modifySession fun u => { u with classes })
  | inClass {α : Type} {f : Frame} {s : State} {m : Lower α} (cls : Nat) : (∀ i, P i) →
      f.scope.procedure = none → (s.session.classes.get? cls).isSome →
      Course D P { f with scope := .inClass cls } s m →
      Course D P f s
        (MonadWithReader.withReader (fun f : Frame => { f with scope := .inClass cls }) m : Lower α)

/-- More instructions may be emitted, if not all of them may be already. -/
theorem Course.mono {D : Prop} {P Q : Instruction → Prop} (hPQ : ∀ i, P i → Q i) {α : Type}
    {f : Frame} {s : State} {m : Lower α} (h : Course D P f s m) : Course D Q f s m := by
  have hall (hP : ∀ i, P i) (i : Instruction) : Q i := hPQ i (hP i)
  induction h with
  | pure a => exact .pure a
  | bind _ _ ihm ihk => exact .bind ihm ihk
  | read => exact .read
  | get => exact .get
  | modify hs hn => exact .modify hs hn
  | defect d hd => exact .defect d hd
  | withReader hg _ ih => exact .withReader hg ih
  | note level topic message => exact .note level topic message
  | report message span hi => exact .report message span hi
  | halt message span hi => exact .halt message span hi
  | emitWith span debug hi => exact .emitWith span debug (hPQ _ hi)
  | patch hP hp => exact .patch (hall hP) hp
  | allocate d => exact .allocate d
  | record hq => exact .record hq
  | block dialect body hP _ ih => exact .block dialect body (hall hP) ih
  | procedure fn p hP hentry _ ih => exact .procedure fn p (hall hP) hentry ih
  | addClass c hP hp hs hps hb ha => exact .addClass c (hall hP) hp hs hps hb ha
  | inClass cls hP hp hc _ ih => exact .inClass cls (hall hP) hp hc ih

/-! ## Declarations that go through -/

theorem run_appendLocal {f : Frame} {s : State} (h : (s.session.block? f.block).isSome)
    (x : Symbol) :
    ∃ r, appendLocal x f s = .ok r { s with session := s.session.enterLocal f.block x } ∧
      ((s.session.enterLocal f.block x).symbol? r).isSome := by
  obtain ⟨b, hb⟩ := Option.isSome_iff_exists.mp h
  refine ⟨⟨.block f.block, b.symbols.size⟩, by simp [appendLocal, hb, Session.enterLocal], ?_⟩
  simp [Session.enterLocal, Session.symbol?, hb]

theorem run_appendMember {f : Frame} {s : State} {cls : Nat} {x : Symbol}
    (hc : (s.session.classes.get? cls).isSome)
    (hx : x.isStatic = true → (s.session.block? 0).isSome) :
    ∃ r, appendMember cls x f s = .ok r { s with session := s.session.enterMember cls x } ∧
      ((s.session.enterMember cls x).symbol? r).isSome := by
  obtain ⟨c, hc⟩ := Option.isSome_iff_exists.mp hc
  refine ⟨⟨.cls cls, c.symbols.size⟩, ?_, ?_⟩
  · cases hs : x.isStatic with
    | false => simp [appendMember, hc, hs, Session.enterMember]
    | true =>
      obtain ⟨b, hb⟩ := Option.isSome_iff_exists.mp (hx hs)
      have hb' : s.session.blocks[0]? = some b := hb
      simp [appendMember, hc, hs, modifyBlock_run, Session.enterMember, Session.block?, hb']
  · have hclass : ((s.session.classes.appendSymbol cls x).get? cls).bind
        (fun k => k.symbols.get? c.symbols.size) = some { x with position := c.symbols.size } := by
      unfold ClassTable.appendSymbol
      rw [ClassTable.get?_modify, if_pos rfl, hc, Option.map_some, Option.bind_some]
      exact SymbolTable.get?_append_size _ _
    unfold Session.enterMember Session.symbol?
    dsimp only
    split
    · rw [Session.modifyBlock]
      simp [hclass]
    · simp [hclass]

/-- A declaration that can be made is made, and returns a symbol of the session. -/
theorem run_allocate {d : Declaration} {f : Frame} {s : State} (h : s.session.CanDeclare f d) :
    ∃ r, allocate d f s = .ok r { s with session := s.session.declare f d } ∧
      ((s.session.declare f d).symbol? r).isSome := by
  unfold Session.CanDeclare at h
  unfold Session.declare allocate
  simp only [run_bind, run_read, run_getSession, run_modifySession]
  revert h
  generalize hk : bucketOf s.session.isWatching f.scope d.isStatic = bucket
  generalize hx : symbolOf d s.session f bucket = x
  have hstatic : x.isStatic = d.isStatic := by rw [← hx]; rfl
  rw [← hstatic]
  let t : State :=
    { s with session := { s.session with counters := countersAfter d s.session bucket x.size } }
  cases bucket with
  | classStatic cls => exact fun h => run_appendMember (f := f) (s := t) h.1 h.2
  | classInstance cls => exact fun h => run_appendMember (f := f) (s := t) h.1 h.2
  | watch => exact fun h => run_appendLocal (f := f) (s := t) h x
  | frame => exact fun h => run_appendLocal (f := f) (s := t) h x
  | global => exact fun h => run_appendLocal (f := f) (s := t) h x

theorem Ready.canDeclare {f : Frame} {s : State} (h : Ready w f s) (d : Declaration) :
    s.session.CanDeclare f d := by
  have hblock := h.stands.block?_isSome
  have hzero : (s.session.block? 0).isSome := by
    have := h.stands.inside
    simp [Session.block?, (by omega : 0 < s.session.blocks.size)]
  unfold Session.CanDeclare bucketOf
  cases s.session.isWatching with
  | true => exact hblock
  | false =>
    cases hp : f.scope.procedure with
    | some r => simpa [Scope.function, hp] using hblock
    | none =>
      cases hc : f.scope.classScope with
      | none => simpa [Scope.function, hp, hc] using hblock
      | some cls =>
        have hcls := h.stands.owner hp cls hc
        cases d.isStatic <;> simp [Scope.function, hp, hcls, hzero]

/-! ## Courses in order -/

/-- The run ended ready, or halted and left a tidy session. -/
def Safe {α : Type} (w : Bool) (f : Frame) (s : State) : EStateM.Result Stop State α → Prop
  | .ok _ t => Ready w f t ∧ s.session.Grows t.session
  | .error (.halt _) t => t.session.Tidy
  | .error (.defect _) _ => False

theorem Safe.bind {α β : Type} {f : Frame} {s : State} {m : Lower α} {k : α → Lower β}
    (hm : Safe w f s (m f s)) (hk : ∀ a t, m f s = .ok a t → Ready w f t → Safe w f t (k a f t)) :
    Safe w f s ((m >>= k) f s) := by
  rw [run_bind]
  revert hm hk
  rcases m f s with ⟨a, t⟩ | ⟨_ | _, t⟩
  · intro hm hk
    have h := hk a t rfl hm.1
    dsimp only
    revert h
    rcases k a f t with ⟨b, u⟩ | ⟨_ | _, u⟩
    · exact fun h => ⟨h.1, hm.2.trans h.2⟩
    · exact id
    · exact id
  · exact fun hm _ => hm
  · exact fun hm _ => hm

theorem safe_change {K : OpCode → Prop} {α : Type} {f : Frame} {s : State} (h : Ready w f s)
    {t : Session} (hc : Change K f s.session t) (a : α) :
    Safe w f s (.ok a { s with session := t }) := ⟨h.change hc, hc.grows⟩

theorem safe_emitWith {f : Frame} {s : State} (h : Ready w f s) (i : Instruction) (span : Span)
    (debug : Option DebugRecord) : Safe w f s (Lowering.emitWith i span debug f s) := by
  rw [run_emitWith i span debug f s h.canEmit]
  have hnote (pc : Nat) (j : Instruction) :
      Ready w f { s with session := s.session.noteEmission f pc j } ∧
        s.session.Grows (s.session.noteEmission f pc j) := by
    unfold Session.noteEmission
    split
    · exact safe_change (K := fun _ => True) (α := Nat) h (.note ..) 0
    · exact ⟨h, .refl _⟩
  obtain ⟨hready, hgrows⟩ := hnote (s.session.stream f.block).size { i with debug }
  have hemit := Change.emit (K := fun _ => True) { i with debug } span trivial hready.canEmit
  exact ⟨hready.change hemit, hgrows.trans hemit.grows⟩

/-- A pending jump can be patched. -/
theorem patch_ne_defect {pending target : Nat} {f : Frame} {s : State} {i j : Instruction}
    {d : Defect} (hcan : s.session.CanEmit f.block)
    (hi : (s.session.stream f.block)[pending]? = some i) (hj : i.patch target = .ok j) :
    Lowering.patch pending target f s ≠ .error (.defect d) s := by
  unfold Session.stream at hi
  unfold Session.CanEmit at hcan
  cases hw : s.session.isWatching with
  | true =>
    rw [if_pos hw] at hi
    simp [Lowering.patch, hw, hi, hj]
  | false =>
    simp only [hw, Bool.false_eq_true, false_or] at hcan
    obtain ⟨b, hb⟩ := Option.isSome_iff_exists.mp hcan
    have hi' : b.code[pending]? = some i := by simpa [hw, hb] using hi
    simp [Lowering.patch, hw, hb, hi', hj, modifyBlock_run]

theorem safe_allocate {f : Frame} {s : State} (h : Ready w f s) (d : Declaration) :
    Safe w f s (Lowering.allocate d f s) := by
  have hcan := h.canDeclare d
  obtain ⟨r, hrun, _⟩ := run_allocate hcan
  rw [hrun]
  exact safe_change (K := fun _ => True) h (.declare d hcan) r

theorem safe_declareParams {f : Frame} {s : State} (h : Ready w f s) (params : List Argument) :
    Safe w f s (declareParams params f s) := by
  induction params generalizing s with
  | nil => exact ⟨h, .refl _⟩
  | cons p rest ih =>
    refine .bind (.bind (safe_allocate h _) fun _ t _ ht => ⟨ht, .refl _⟩) fun _ t _ ht => ih ht

/-- What an inner frame leaves behind is ready for the frame around it. -/
theorem Ready.outer {f : Frame} {s : State} (h : Ready w f s) {t : Session} (ht : t.Tidy)
    (hst : s.session.Grows t) (hw : t.isWatching = w) : Ready w f { s with session := t } :=
  ⟨ht, h.stands.grows hst, h.neat.grows hst, hw⟩

theorem Ready.openBlock {f : Frame} {s : State} (h : Ready w f s) (dialect : Dialect)
    (body : List Node) :
    Ready w (unitFrame s.session.blocks.size f.scope dialect body)
      { session := s.session.openBlock f dialect } := by
  have hstart : Ready w { block := s.session.blocks.size, scope := f.scope, dialect }
      { session := s.session.openBlock f dialect } := by
    refine ⟨h.tidy.openBlock h.stands dialect, Session.stands_openBlock h.stands dialect,
      neat_start ?_, ?_⟩
    · simp [Session.openBlock]
    · exact (Opens.block (f := f) dialect h.stands.block?_isSome).isWatching_eq.trans h.mode
  exact hstart.site rfl

theorem Ready.openProcedure {f : Frame} {s : State} (h : Ready w f s) (p : Procedure)
    (message : String) (body : List Node) :
    Ready w (bodyUnit f s.session body) { session := s.session.openProcedure f p message } := by
  have hstands := Session.stands_openProcedure h.stands p message
  have hopen := Opens.procedure (f := f) p message h.stands.block?_isSome
    fun _ => h.stands.ownerClass
  have hmode := hopen.isWatching_eq.trans h.mode
  have hstart : Ready w (bodyFrame f s.session)
      { session := s.session.openProcedure f p message } :=
    ⟨h.tidy.openProcedure h.stands p message, hstands,
      neat_start (Nat.lt_of_le_of_lt (Nat.zero_le _) hstands.inside), hmode⟩
  exact hstart.site rfl

theorem Ready.inClass {f : Frame} {s : State} (h : Ready w f s) {cls : Nat}
    (hp : f.scope.procedure = none) (hc : (s.session.classes.get? cls).isSome) :
    Ready w { f with scope := .inClass cls } s := by
  obtain ⟨hd, hs, hproc⟩ := h.stands.placed.block
  refine ⟨h.tidy, ⟨⟨⟨hd, hs, hproc.trans hp⟩, ?_⟩, ?_⟩, h.neat, h.mode⟩
  · intro id hid
    cases hid
  · intro _ other hother
    cases hother
    exact hc

theorem safe_lowerInner {f : Frame} {s : State} (h : Ready w f s) {dialect : Dialect}
    {body : List Node}
    (hcode : Safe w (unitFrame s.session.blocks.size f.scope dialect body)
      { session := s.session.openBlock f dialect }
      (lowerCode body (unitFrame s.session.blocks.size f.scope dialect body)
        { session := s.session.openBlock f dialect })) :
    Safe w f s (lowerInner dialect body f s) := by
  rw [lowerInner_run dialect body h.stands.block?_isSome]
  revert hcode
  rcases lowerCode body _ _ with ⟨_, t⟩ | ⟨_ | _, t⟩
  · intro ht
    have hgrows := (s.session.grows_openBlock f dialect).trans ht.2
    exact ⟨h.outer ht.1.tidy hgrows ht.1.mode, hgrows⟩
  · exact id
  · exact id

/-- A run that starts in order has the block and the class that the body of a procedure needs. -/
theorem Ready.run_lowerBody {f : Frame} {s : State} (h : Ready w f s) (fn : Function) (p : Procedure) :
    lowerBody statement fn p f s =
      match
        (do
          declareParams p.args
          lowerCode fn.body) (bodyUnit f s.session fn.body)
          { session :=
              s.session.openProcedure f p (bodyMessage fn.name s.session.blocks.size) } with
      | .ok _ t =>
        (do
          let entry := (← getBlock s.session.blocks.size).entry
          modifySession fun u => u.modifyProcedure (s.session.nextProcedure f.scope) fun p =>
            { p with entry, locals := t.session.counters.locals }) f
          { s with session := t.session.setLocals s.session.counters.locals }
      | .error e t =>
        .error e { t with session := t.session.setLocals s.session.counters.locals } := by
  rcases lowerBody_cases fn p f s with ⟨_, _, hrun⟩ | ⟨hb | ⟨cls, howner, hc⟩, _⟩
  · exact hrun
  · have hblock := h.stands.block?_isSome
    rw [hb] at hblock
    cases hblock
  · have hcls := h.stands.ownerClass howner
    rw [hc] at hcls
    cases hcls

theorem safe_lowerBody {f : Frame} {s : State} (h : Ready w f s) {fn : Function} {p : Procedure}
    (hcode : Safe w (bodyUnit f s.session fn.body)
      { session := s.session.openProcedure f p (bodyMessage fn.name s.session.blocks.size) }
      ((do
        declareParams p.args
        lowerCode fn.body) (bodyUnit f s.session fn.body)
        { session := s.session.openProcedure f p (bodyMessage fn.name s.session.blocks.size) })) :
    Safe w f s (lowerBody statement fn p f s) := by
  rw [h.run_lowerBody fn p]
  revert hcode
  generalize (declareParams p.args >>= fun _ => lowerCode fn.body) _ _ = r
  rcases r with ⟨_, t⟩ | ⟨_ | _, t⟩
  · intro ht
    have hopen := s.session.grows_openProcedure f p (bodyMessage fn.name s.session.blocks.size)
    have hlocals : t.session.Grows (t.session.setLocals s.session.counters.locals) :=
      Session.grows_of_tables rfl rfl rfl
    have hgrows := (hopen.trans ht.2).trans hlocals
    have hbody := hlocals.block?_isSome ht.1.stands.block?_isSome
    obtain ⟨b, hb⟩ := Option.isSome_iff_exists.mp hbody
    have hb' : (t.session.setLocals s.session.counters.locals).block? s.session.blocks.size =
        some b := hb
    simp only [run_bind, run_getBlock, hb', run_modifySession]
    have hfinish := Session.grows_modifyProcedure
      (t.session.setLocals s.session.counters.locals) (s.session.nextProcedure f.scope)
      (g := fun p => { p with entry := b.entry, locals := t.session.counters.locals }) fun _ => rfl
    have htidy : (t.session.setLocals s.session.counters.locals).Tidy :=
      ht.1.tidy.congr rfl rfl rfl
    refine ⟨h.outer (htidy.modifyProcedure _ ?_ ?_) (hgrows.trans hfinish) ?_, hgrows.trans hfinish⟩
    · exact fun _ => rfl
    · exact fun _ => rfl
    · rw [Session.isWatching_modifyProcedure]
      exact ht.1.mode
  · intro ht
    exact Session.Tidy.congr ht rfl rfl rfl
  · exact id

/-- A run that starts in order and has a course ends in order, and never in a defect. -/
theorem Course.safe {D : Prop} {P : Instruction → Prop} {α : Type} {f : Frame} {s : State}
    {m : Lower α} (h : Course D P f s m) (hD : D) (hr : Ready w f s) : Safe w f s (m f s) := by
  induction h with
  | pure a => exact ⟨hr, .refl _⟩
  | bind _ _ ihm ihk => exact .bind (ihm hr) fun a t hrun ht => ihk a t hrun ht
  | read => exact ⟨hr, .refl _⟩
  | get => exact ⟨hr, .refl _⟩
  | @modify f s g hs hn =>
    change Ready w f (g s) ∧ s.session.Grows (g s).session
    rw [hs]
    refine ⟨⟨?_, ?_, hn hD hr.neat, ?_⟩, .refl _⟩ <;> rw [hs]
    · exact hr.tidy
    · exact hr.stands
    · exact hr.mode
  | defect d hd => exact hd hD
  | @withReader α f s g m hg _ ih =>
    have hm := ih (hr.site hg)
    change Safe w f s (m (g f) s)
    revert hm
    rcases m (g f) s with ⟨_, t⟩ | ⟨_ | _, t⟩
    · exact fun hm => ⟨hm.1.site hg.symm, hm.2⟩
    · exact id
    · exact id
  | note level topic message => exact safe_change (K := fun _ => True) hr (.note ..) _
  | report message span _ => exact safe_change (K := fun _ => True) hr (.report ..) _
  | halt message span _ =>
    exact (safe_change (K := fun _ => True) (α := Unit) hr (.report ..) ()).1.tidy
  | emitWith span debug _ => exact safe_emitWith hr _ span debug
  | @patch f s pending target _ hp =>
    obtain ⟨i, j, hi, hj⟩ := hp hD
    rcases patch_cases pending target f s with ⟨i', j', hi', hj', hrun⟩ | ⟨d, hrun⟩
    · rw [hrun]
      exact safe_change (K := fun _ => True) hr (.patch hi' hj' trivial) _
    · exact absurd hrun (patch_ne_defect hr.canEmit hi hj)
  | allocate d => exact safe_allocate hr d
  | record hq => exact safe_change (K := fun _ => True) hr hq.change _
  | block dialect body _ _ ih =>
    exact safe_lowerInner hr (ih hr.stands.block?_isSome (hr.openBlock dialect body))
  | procedure fn p _ _ _ ih =>
    refine safe_lowerBody hr (.bind (safe_declareParams (hr.openProcedure p _ fn.body) p.args) ?_)
    intro _ t hrun ht
    exact ih hr.stands.block?_isSome (fun _ => hr.stands.ownerClass) t hrun ht
  | @addClass f s c classes _ hp hs hps hb ha =>
    have hgrows := Session.grows_appendClass ha
    refine ⟨hr.outer (hr.tidy.appendClass ?_ ⟨?_, hb hD⟩ ha) hgrows hr.mode, hgrows⟩
    · rw [hs]
      exact SymbolTable.numbered_empty
    · rw [hps]
      exact ProcedureTable.numbered_empty
  | @inClass α f s m cls _ hp hc _ ih =>
    have hm := ih (hr.inClass hp hc)
    change Safe w f s (m { f with scope := .inClass cls } s)
    revert hm
    rcases m { f with scope := .inClass cls } s with ⟨_, t⟩ | ⟨_ | _, t⟩
    · exact fun hm => ⟨⟨hm.1.tidy, hr.stands.grows hm.2, hm.1.neat, hm.1.mode⟩, hm.2⟩
    · exact id
    · exact id

end Lowering

end Diglot
