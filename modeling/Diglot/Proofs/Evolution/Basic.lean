import Diglot.Proofs.Run

/-! # What lowering does to a session

Everything that lowering does to a session is a sequence of few kinds of changes. They are listed
here once, and what holds of whole runs follows from what holds of each change.

* `Change K f s t`: lowering in frame `f` takes `s` to `t` in one go. Only instructions whose opcode
  is in `K` are emitted or patched.
* `Opens f s g t close`: lowering in frame `f` goes on in an inner frame `g`, for a language block,
  a procedure or a class; `close` says what happens when the inner frame is done.
* `Evolves K f s t`: any number of changes and of inner frames, from opening to closing.
* `Visits f s g t`: in the course of such a sequence, lowering is in frame `g` with session `t`.
* `Evolving K m`: every run of `m` that ends, or stops at an error of the source, evolves its
  session.

Of a frame only the block, the scope and the dialect matter, which is its `site`.
-/

set_option autoImplicit false

namespace Diglot

open Lowering

/-- The frame without what changes from one part of a statement to another. -/
def Lowering.Frame.site (f : Frame) : Frame :=
  { block := f.block, scope := f.scope, dialect := f.dialect }

namespace Session

/-! ## Changes as functions on sessions -/

/-- The session with a member in the table of its class and, if it is static, in that of the first
block. -/
def enterMember (s : Session) (cls : Nat) (x : Symbol) : Session :=
  let s := { s with classes := s.classes.appendSymbol cls x }
  if x.isStatic then
    s.modifyBlock 0 fun b => { b with symbols := b.symbols.append { x with block := 0 } }
  else s

/-- The session with a variable in the table of a block. -/
def enterLocal (s : Session) (block : Nat) (x : Symbol) : Session :=
  s.modifyBlock block fun b => { b with symbols := b.symbols.append x }

/-- A declaration can be entered into its table. -/
def CanDeclare (s : Session) (f : Frame) (d : Declaration) : Prop :=
  match bucketOf s.isWatching f.scope d.isStatic with
  | .classStatic cls | .classInstance cls =>
    (s.classes.get? cls).isSome ∧ (d.isStatic = true → (s.block? 0).isSome)
  | _ => (s.block? f.block).isSome

/-- The session after a variable has been declared: its place is taken, and it stands in the table
of its class or block. -/
def declare (s : Session) (f : Frame) (d : Declaration) : Session :=
  let bucket := bucketOf s.isWatching f.scope d.isStatic
  let symbol := symbolOf d s f bucket
  let s := { s with counters := countersAfter d s bucket symbol.size }
  match bucket with
  | .classStatic cls | .classInstance cls => s.enterMember cls symbol
  | _ => s.enterLocal f.block symbol

/-- The symbol that a declaration enters. -/
def declared (s : Session) (f : Frame) (d : Declaration) : Symbol :=
  symbolOf d s f (bucketOf s.isWatching f.scope d.isStatic)

/-- A declaration in a class and in no procedure enters a member, and any other one a local. -/
theorem declare_cases (s : Session) (f : Frame) (d : Declaration) :
    (∃ cls counters, s.isWatching = false ∧ f.scope.procedure = none ∧
      f.scope.classScope = some cls ∧ (s.CanDeclare f d → (s.classes.get? cls).isSome) ∧
      s.declare f d = { s with counters }.enterMember cls (s.declared f d)) ∨
    (∃ counters, (s.isWatching = true ∨ f.scope.procedure.isSome ∨ f.scope.classScope = none) ∧
      (s.CanDeclare f d → (s.block? f.block).isSome) ∧
      s.declare f d = { s with counters }.enterLocal f.block (s.declared f d)) := by
  have hlocal : (∀ cls, bucketOf s.isWatching f.scope d.isStatic ≠ .classStatic cls ∧
        bucketOf s.isWatching f.scope d.isStatic ≠ .classInstance cls) →
      ∃ counters, (s.CanDeclare f d → (s.block? f.block).isSome) ∧
        s.declare f d = { s with counters }.enterLocal f.block (s.declared f d) := by
    intro h
    unfold declare declared CanDeclare
    generalize bucketOf s.isWatching f.scope d.isStatic = bucket at h ⊢
    cases bucket with
    | classStatic cls => exact absurd rfl (h cls).1
    | classInstance cls => exact absurd rfl (h cls).2
    | _ => exact ⟨_, id, rfl⟩
  rcases Bool.eq_false_or_eq_true s.isWatching with hw | hw
  · obtain ⟨counters, h⟩ := hlocal (by simp [bucketOf, hw])
    exact .inr ⟨counters, .inl hw, h⟩
  cases hp : f.scope.procedure with
  | some r =>
    obtain ⟨counters, h⟩ := hlocal (by simp [bucketOf, hw, Scope.function, hp])
    exact .inr ⟨counters, .inr (.inl rfl), h⟩
  | none =>
    cases hc : f.scope.classScope with
    | none =>
      obtain ⟨counters, h⟩ := hlocal (by simp [bucketOf, hw, Scope.function, hp, hc])
      exact .inr ⟨counters, .inr (.inr rfl), h⟩
    | some cls =>
      have hbucket : bucketOf s.isWatching f.scope d.isStatic =
          if d.isStatic then .classStatic cls else .classInstance cls := by
        simp [bucketOf, hw, Scope.function, hp, hc]
      refine .inl ⟨cls, ?_⟩
      unfold declare declared CanDeclare
      rw [hbucket]
      cases d.isStatic with
      | true => exact ⟨_, hw, rfl, rfl, And.left, rfl⟩
      | false => exact ⟨_, hw, rfl, rfl, And.left, rfl⟩

/-- The stream with another instruction at a place. -/
def replaceCode (s : Session) (block pc : Nat) (i : Instruction) : Session :=
  if s.isWatching then { s with watch := s.watch.setIfInBounds pc i }
  else s.modifyBlock block fun b => { b with code := b.code.setIfInBounds pc i }

/-- The session with another count of locals. -/
def setLocals (s : Session) (n : Nat) : Session :=
  { s with counters := { s.counters with locals := n } }

/-- The class that a procedure declared in a scope belongs to. -/
def ownerClass (scope : Scope) : Option Nat :=
  if scope.procedure.isNone then scope.classScope else none

/-- The reference that the next procedure declared in a scope gets. -/
def nextProcedure (s : Session) (scope : Scope) : ProcRef :=
  match ownerClass scope with
  | some cls => ⟨some cls, ((s.classes.get? cls).map fun c => c.procedures.size).getD 0⟩
  | none => ⟨none, s.procedures.size⟩

/-- The session after a procedure has been registered. -/
def register (s : Session) (scope : Scope) (p : Procedure) : Session :=
  match ownerClass scope with
  | some cls => { s with classes := s.classes.appendProcedure cls p }
  | none => { s with procedures := s.procedures.append p }

/-- The session in which the body of a procedure is lowered: the procedure is registered, and its
body has a block below the current one and a count of locals of its own. -/
def openProcedure (s : Session) (f : Frame) (p : Procedure) (message : String) : Session :=
  let r := s.nextProcedure f.scope
  let body := s.blocks.size
  let s := (s.register f.scope p).addBlock .function f.dialect (some f.block)
  let s := s.modifyBlock body fun b => { b with procedure := some r }
  let s := s.modifyProcedure r fun p => { p with block := some body }
  (s.note .debug .code message).setLocals 0

@[simp] theorem blocks_register (s : Session) (scope : Scope) (p : Procedure) :
    (s.register scope p).blocks = s.blocks := by
  unfold register
  split <;> rfl

@[simp] theorem counters_register (s : Session) (scope : Scope) (p : Procedure) :
    (s.register scope p).counters = s.counters := by
  unfold register
  split <;> rfl

@[simp] theorem blocks_modifyProcedure (s : Session) (r : ProcRef) (g : Procedure → Procedure) :
    (s.modifyProcedure r g).blocks = s.blocks := by
  unfold modifyProcedure
  split <;> rfl

theorem blocks_openProcedure (s : Session) (f : Frame) (p : Procedure) (message : String) :
    (s.openProcedure f p message).blocks =
      (((s.register f.scope p).addBlock .function f.dialect (some f.block)).modifyBlock s.blocks.size fun b =>
        { b with procedure := some (s.nextProcedure f.scope) }).blocks :=
  blocks_modifyProcedure ..

@[simp] theorem counters_modifyProcedure (s : Session) (r : ProcRef) (g : Procedure → Procedure) :
    (s.modifyProcedure r g).counters = s.counters := by
  unfold modifyProcedure
  split <;> rfl

@[simp] theorem counters_addBlock (s : Session) (kind : BlockKind) (dialect : Dialect)
    (parent : Option Nat) : (s.addBlock kind dialect parent).counters = s.counters := by
  cases parent <;> rfl

/-- The session in which a language block is lowered. -/
def openBlock (s : Session) (f : Frame) (dialect : Dialect) : Session :=
  (s.addBlock .language dialect (some f.block)).modifyBlock s.blocks.size fun b =>
    { b with procedure := f.scope.procedure }

end Session

namespace Lowering

/-! ## Changes -/

/-- What lowering in a frame does to a session in one go. -/
inductive Change (K : OpCode → Prop) (f : Frame) (s : Session) : Session → Prop where
  | note (level : LogLevel) (topic : LogTopic) (message : String) :
      Change K f s (s.note level topic message)
  | report (issue : Issue) (message : String) (span : Span) :
      Change K f s (s.report (s.diagnostic issue message span))
  | emit (i : Instruction) (span : Span) : K i.opcode → s.CanEmit f.block →
      Change K f s (s.emit f.block i span)
  | patch {pending target : Nat} {i j : Instruction} : (s.stream f.block)[pending]? = some i →
      i.patch target = .ok j → K i.opcode → Change K f s (s.replaceCode f.block pending j)
  | declare (d : Declaration) : s.CanDeclare f d → Change K f s (s.declare f d)
  | temporary :
      Change K f s
        { s with counters := { s.counters with temporaries := s.counters.temporaries + 1 } }
  | uid : Change K f s { s with nextUid := s.nextUid + 1 }
  | commit (node : GraphNode) : (s.block? node.block).isSome →
      Change K f s
        (s.modifyBlock node.block fun b =>
          { b with graph := b.graph.push { node with isSealed := true } })
  | lateVariable (entry : LateVariable) :
      Change K f s { s with lateVariables := s.lateVariables.push entry }
  | lateMember (i : Nat) (name : String) :
      Change K f s
        { s with
          lateVariables := s.lateVariables.modify i fun e =>
            { e with members := e.members ++ [name] } }
  | lateFunction (entry : LateFunction) :
      Change K f s { s with lateFunctions := s.lateFunctions.push entry }

/-- Lowering in a frame goes on in an inner one. The last argument relates the session in which the
inner frame ends to the one in which the outer frame goes on. -/
inductive Opens (f : Frame) (s : Session) :
    Frame → Session → (Session → Session → Prop) → Prop where
  /-- A language block belongs to the procedure around it. -/
  | block (dialect : Dialect) : (s.block? f.block).isSome →
      Opens f s { block := s.blocks.size, scope := f.scope, dialect } (s.openBlock f dialect) Eq
  /-- A procedure gives the count of locals back, and learns where its body begins if the body has
  been lowered to the end. -/
  | procedure (p : Procedure) (message : String) : (s.block? f.block).isSome →
      (∀ cls, Session.ownerClass f.scope = some cls → (s.classes.get? cls).isSome) →
      Opens f s
        { block := s.blocks.size
          scope :=
            { classScope := (s.nextProcedure f.scope).classScope
              procedure := some (s.nextProcedure f.scope)
              body := some s.blocks.size }
          dialect := f.dialect }
        (s.openProcedure f p message)
        fun inner after =>
          after = inner.setLocals s.counters.locals ∨
            ∃ entry, after =
              (inner.setLocals s.counters.locals).modifyProcedure (s.nextProcedure f.scope) fun p =>
                { p with entry, locals := inner.counters.locals }
  /-- Classes are declared at the top level of a unit. -/
  | cls (c : Class) (classes : ClassTable) : f.scope.procedure = none →
      f.scope.classScope = none → c.symbols = {} → s.classes.append? c = some classes →
      Opens f s { f with scope := .inClass s.classes.size } { s with classes } Eq

/-- Any number of changes, and of inner frames from their opening to their closing. Inner frames
with a block of their own may emit whatever they like. -/
inductive Evolves : (OpCode → Prop) → Frame → Session → Session → Prop where
  | refl (K : OpCode → Prop) (f : Frame) (s : Session) : Evolves K f s s
  | step {K : OpCode → Prop} {f : Frame} {s t u : Session} : Evolves K f s t → Change K f t u →
      Evolves K f s u
  | inner {K : OpCode → Prop} {f g : Frame} {s t u v w : Session}
      {close : Session → Session → Prop} : Evolves K f s t → Opens f t g u close →
      Evolves (fun op => g.block = f.block → K op) g u v → close v w → Evolves K f s w

/-- In the course of evolving from frame `f` with session `s`, lowering is in frame `g` with session
`t`. -/
inductive Visits : Frame → Session → Frame → Session → Prop where
  | here {K : OpCode → Prop} {f : Frame} {s t : Session} : Evolves K f s t → Visits f s f t
  | inner {K : OpCode → Prop} {f g h : Frame} {s t u v : Session}
      {close : Session → Session → Prop} : Evolves K f s t → Opens f t g u close →
      Visits g u h v → Visits f s h v

theorem Change.mono {K L : OpCode → Prop} {f : Frame} {s t : Session} (hKL : ∀ op, K op → L op)
    (h : Change K f s t) : Change L f s t := by
  cases h with
  | note level topic message => exact .note level topic message
  | report issue message span => exact .report issue message span
  | emit i span hi hc => exact .emit i span (hKL _ hi) hc
  | patch hp hj hi => exact .patch hp hj (hKL _ hi)
  | declare d hd => exact .declare d hd
  | temporary => exact .temporary
  | uid => exact .uid
  | commit node hb => exact .commit node hb
  | lateVariable entry => exact .lateVariable entry
  | lateMember i name => exact .lateMember i name
  | lateFunction entry => exact .lateFunction entry

theorem Evolves.mono {K : OpCode → Prop} {f : Frame} {s t : Session} (h : Evolves K f s t) :
    ∀ {L : OpCode → Prop}, (∀ op, K op → L op) → Evolves L f s t := by
  induction h with
  | refl K f s => intro L _; exact .refl L f s
  | step _ hc ih => intro L hKL; exact .step (ih hKL) (hc.mono hKL)
  | inner _ ho _ hw ih ihg =>
    intro L hKL
    exact .inner (ih hKL) ho (ihg fun op hop hb => hKL op (hop hb)) hw

theorem Evolves.trans {K : OpCode → Prop} {f : Frame} {s t u : Session} (h : Evolves K f s t)
    (h' : Evolves K f t u) : Evolves K f s u := by
  induction h' with
  | refl => exact h
  | step _ hc ih => exact .step (ih h) hc
  | inner _ ho hg hw ih _ => exact .inner (ih h) ho hg hw

theorem Evolves.single {K : OpCode → Prop} {f : Frame} {s t : Session} (h : Change K f s t) :
    Evolves K f s t := .step (.refl K f s) h

/-- An inner frame with a block of its own is free in what it emits. -/
theorem Evolves.through {K : OpCode → Prop} {f g : Frame} {s u v w : Session}
    {close : Session → Session → Prop} (ho : Opens f s g u close) (hne : g.block ≠ f.block)
    (hg : Evolves (fun _ => True) g u v) (hw : close v w) : Evolves K f s w :=
  .inner (.refl K f s) ho (hg.mono fun _ _ heq => absurd heq hne) hw

/-! ## Steps of lowering that evolve their session -/

/-- If the run finished or stopped at an error of the source, the session has evolved. A defect ends
the compiler itself, and its session with it. -/
def Settled {α : Type} (K : OpCode → Prop) (f : Frame) (s : State) :
    EStateM.Result Stop State α → Prop
  | .ok _ t => Evolves K f.site s.session t.session
  | .error (.halt _) t => Evolves K f.site s.session t.session
  | .error (.defect _) _ => True

theorem Settled.after {α : Type} {K : OpCode → Prop} {f : Frame} {s t : State}
    {r : EStateM.Result Stop State α} (h : Evolves K f.site s.session t.session)
    (hr : Settled K f t r) : Settled K f s r := by
  rcases r with ⟨_, u⟩ | ⟨_ | _, u⟩
  · exact h.trans hr
  · exact h.trans hr
  · trivial

theorem Settled.bind {α β : Type} {K : OpCode → Prop} {f : Frame} {s : State} {m : Lower α}
    {k : α → Lower β} (hm : Settled K f s (m f s)) (hk : ∀ a t, Settled K f t (k a f t)) :
    Settled K f s ((m >>= k) f s) := by
  rw [run_bind]
  revert hm
  rcases m f s with ⟨a, t⟩ | ⟨_ | _, t⟩
  · exact fun h => .after h (hk a t)
  · exact id
  · exact id

/-- Every run evolves its session, by emitting only opcodes of the given kind. -/
def Evolving {α : Type} (K : OpCode → Prop) (m : Lower α) : Prop := ∀ f s, Settled K f s (m f s)

namespace Evolving

variable {α β : Type} {K : OpCode → Prop}

theorem mono {L : OpCode → Prop} {m : Lower α} (h : Evolving K m) (hKL : ∀ op, K op → L op) :
    Evolving L m := by
  intro f s
  have hm := h f s
  revert hm
  rcases m f s with ⟨_, t⟩ | ⟨_ | _, t⟩
  · exact fun hm => hm.mono hKL
  · exact fun hm => hm.mono hKL
  · exact id

theorem pure (a : α) : Evolving K (Pure.pure a : Lower α) := fun _ s => .refl K _ s.session

theorem bind {m : Lower α} {k : α → Lower β} (hm : Evolving K m) (hk : ∀ a, Evolving K (k a)) :
    Evolving K (m >>= k) := fun f s => .bind (hm f s) fun a t => hk a f t

theorem ite {c : Prop} [Decidable c] {m n : Lower α} (hm : Evolving K m) (hn : Evolving K n) :
    Evolving K (if c then m else n) := by
  split
  · exact hm
  · exact hn

/-- A step that is taken on a condition, before the steps behind it. -/
theorem onlyIf {c : Prop} [Decidable c] {m : Lower β} {k : Lower α} (hm : Evolving K m)
    (hk : Evolving K k) : Evolving K (if c then m >>= fun _ => k else k) :=
  ite (bind hm fun _ => hk) hk

theorem read : Evolving K (MonadReader.read : Lower Frame) := fun _ s => .refl K _ s.session

theorem get : Evolving K (MonadState.get : Lower State) := fun _ s => .refl K _ s.session

theorem getSession : Evolving K Lowering.getSession := fun _ s => .refl K _ s.session

theorem modifyState {g : State → State} (h : ∀ s, (g s).session = s.session) :
    Evolving K (modify g : Lower Unit) := by
  intro f s
  change Evolves K f.site s.session (g s).session
  rw [h]
  exact .refl K _ _

theorem defect (d : Defect) : Evolving K (Lowering.defect d : Lower α) := fun _ _ => trivial

/-- Parts of a statement may be lowered with other flags. -/
theorem withReader {g : Frame → Frame} (hg : ∀ f, (g f).site = f.site) {m : Lower α}
    (h : Evolving K m) : Evolving K (MonadWithReader.withReader g m : Lower α) := by
  intro f s
  have hm := h (g f) s
  unfold Settled at hm ⊢
  rwa [hg] at hm

theorem forM {l : List α} {k : α → Lower Unit} (h : ∀ a ∈ l, Evolving K (k a)) :
    Evolving K (l.forM k) := by
  induction l with
  | nil => exact pure ()
  | cons a rest ih =>
    refine bind (h a (List.mem_cons_self ..)) fun _ => ih fun b hb => h b ?_
    exact List.mem_cons_of_mem a hb

theorem note (level : LogLevel) (topic : LogTopic) (message : String) :
    Evolving K (Lowering.note level topic message) :=
  fun _ _ => .single (.note level topic message)

theorem report (issue : Issue) (message : String) (span : Span) :
    Evolving K (Lowering.report issue message span) :=
  fun _ _ => .single (.report issue message span)

theorem halt (issue : Issue) (message : String) (span : Span) :
    Evolving K (Lowering.halt issue message span : Lower α) :=
  fun _ _ => .single (.report issue message span)

end Evolving

end Lowering

end Diglot

/-! ## Invariants of lowering

What every change keeps, and every opening and closing of an inner frame, holds along every course
that lowering can take. The induction is done here once.
-/

namespace Diglot.Lowering

/-- A property of the current frame and session that lowering never breaks. -/
structure Invariant (I : Frame → Session → Prop) : Prop where
  change {K : OpCode → Prop} {f : Frame} {s t : Session} : I f s → Change K f s t → I f t
  opens {f g : Frame} {s t : Session} {close : Session → Session → Prop} : I f s →
    Opens f s g t close → I g t
  closes {K : OpCode → Prop} {f g : Frame} {s t u v : Session} {close : Session → Session → Prop} :
    I f s → Opens f s g t close → Evolves K g t u → I g u → close u v → I f v

namespace Invariant

variable {I : Frame → Session → Prop}

theorem evolves (hI : Invariant I) {K : OpCode → Prop} {f : Frame} {s t : Session}
    (h : Evolves K f s t) (hs : I f s) : I f t := by
  induction h with
  | refl => exact hs
  | step _ hc ih => exact hI.change (ih hs) hc
  | inner _ ho hg hw ih ihg =>
    have ht := ih hs
    exact hI.closes ht ho hg (ihg (hI.opens ht ho)) hw

/-- An invariant that holds in the beginning holds wherever lowering gets to. -/
theorem visits (hI : Invariant I) {f g : Frame} {s t : Session} (h : Visits f s g t) (hs : I f s) :
    I g t := by
  induction h with
  | here he => exact hI.evolves he hs
  | inner he ho _ ih => exact ih (hI.opens (hI.evolves he hs) ho)

end Invariant

end Diglot.Lowering
