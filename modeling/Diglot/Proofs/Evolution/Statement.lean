import Diglot.Proofs.Evolution.Steps

/-! # Statements evolve their session

A statement without control flow evolves its session by straight code; a nested block or procedure
puts its own code elsewhere. With the loops and branches of an imperative block, every statement
evolves its session.
-/

set_option autoImplicit false

namespace Diglot.Lowering

/-! ## Straight code -/

namespace Evolving

variable {K : OpCode → Prop}

theorem probe (node : Node) : Evolving K (probe node) := quiet.probe node

theorem lowerResult (value : Option Node) (span : Span) :
    Evolving OpCode.IsStraight (lowerResult value span) := (straight fun _ => id).lowerResult value span

theorem lowerUpdate (target value : Node) (span : Span) :
    Evolving OpCode.IsStraight (lowerUpdate target value span) := (straight fun _ => id).lowerUpdate target value span

theorem lowerCondition (condition : Node) (span : Span) :
    Evolving OpCode.IsStraight (lowerCondition condition span) := (straight fun _ => id).lowerCondition condition span

theorem lowerAssignment (target value : Node) : Evolving OpCode.IsStraight (lowerAssignment target value) :=
  (straight fun _ => id).lowerAssignment target value

theorem lowerDiscarded (node : Node) : Evolving OpCode.IsStraight (lowerDiscarded node) :=
  (straight fun _ => id).lowerDiscarded node

theorem lowerVariable {statement : LowerStatement}
    (hassign : ∀ target value span, Evolving OpCode.IsStraight (statement (.assign target value span)))
    (v : Variable) : Evolving OpCode.IsStraight (lowerVariable statement v) :=
  (straight fun _ => id).lowerVariable hassign v

theorem emitLeave : Evolving (fun _ => True) emitLeave := bind read fun _ => emit trivial _

theorem returnStatement (value : Option Node) (span : Span) : Evolving (fun _ => True) (returnStatement value span) :=
  (straight fun _ _ => trivial).returnStatement emitLeave value span

theorem closeUnit (unit : List Node) : Evolving (fun _ => True) (closeUnit unit) :=
  (straight fun _ _ => trivial).closeUnit emitLeave unit

theorem lowerAll {statement : LowerStatement} (h : ∀ n, Evolving K (statement n)) (l : List Node) :
    Evolving K (lowerAll statement l) := quiet.lowerAll h l

theorem lowerMembers (members : List Variable) : Evolving K (lowerMembers members) := quiet.lowerMembers members

end Evolving

/-! ## Opening blocks, procedures and classes -/

section
variable {α : Type} (f : Frame) (s : State)

theorem run_nested (frame : Frame) (m : Lower α) :
    nested frame m f s =
      match m frame { session := s.session } with
      | .ok a t => .ok a { s with session := t.session }
      | .error e t => .error e t := by
  simp only [nested, run_bind, run_get, run_set, run_withReader]
  cases m frame { session := s.session } <;> rfl

theorem run_countingLocals (m : Lower Unit) :
    countingLocals m f s =
      match m f { s with session := s.session.setLocals 0 } with
      | .ok _ t =>
        .ok t.session.counters.locals
          { t with session := t.session.setLocals s.session.counters.locals }
      | .error e t =>
        .error e { t with session := t.session.setLocals s.session.counters.locals } := by
  unfold countingLocals
  simp only [run_bind, run_getSession, run_modifySession, run_tryCatch, Session.setLocals]
  generalize m f _ = r
  cases r <;> rfl

end

theorem lowerBlock_run (statement : LowerStatement) (dialect : Dialect) (body : List Node)
    (span : Span) {f : Frame} {s : State} (h : (s.session.block? f.block).isSome) :
    lowerBlock statement dialect body span f s =
      (do
        lowerUnit statement s.session.blocks.size f.scope dialect body []
        let entry := (← getBlock s.session.blocks.size).entry.getD 0
        let _ ← emitBounce s.session.blocks.size entry span) f
        { s with session := s.session.openBlock f dialect } := by
  obtain ⟨b, hb⟩ := Option.isSome_iff_exists.mp h
  have hnew : ((s.session.addBlock .language dialect (some f.block)).block?
      s.session.blocks.size).isSome := by
    simp [Session.addBlock, Session.block?]
  obtain ⟨c, hc⟩ := Option.isSome_iff_exists.mp hnew
  simp only [lowerBlock, addBlock, run_bind, run_read, run_getSession, run_getBlock, hb,
    run_modifySession, run_pure, modifyBlock_run, hc]
  rfl

/-- Nested code evolves the session from its own frame. -/
theorem nested_settled {α : Type} {K : OpCode → Prop} {m : Lower α} (h : Evolving K m)
    (frame f : Frame) (s : State) : Settled K frame s (nested frame m f s) := by
  rw [run_nested]
  have hrun := h frame { session := s.session }
  revert hrun
  rcases m frame { session := s.session } with ⟨_, t⟩ | ⟨_ | _, t⟩
  · exact id
  · exact id
  · exact id

section
variable {statement : LowerStatement} (h : ∀ n, Evolving (fun _ => True) (statement n))
include h

/-- A unit evolves the session from its own block. -/
theorem lowerUnit_settled (block : Nat) (scope : Scope) (dialect : Dialect) (unit : List Node)
    (params : List Argument) (f : Frame) (s : State) :
    Settled (fun _ => True) { block, scope, dialect } s
      (lowerUnit statement block scope dialect unit params f s) := by
  refine nested_settled ?_ (unitFrame block scope dialect unit) f s
  refine .bind (.forM fun p _ => .bind (.allocate _) fun _ => .pure _) fun _ => ?_
  exact .bind (.lowerAll h unit) fun _ => .closeUnit unit

theorem Evolving.lowerBlock (dialect : Dialect) (body : List Node) (span : Span) :
    Evolving OpCode.IsStraight (lowerBlock statement dialect body span) := by
  intro f s
  cases hb : s.session.block? f.block with
  | none =>
    have hrun : Lowering.lowerBlock statement dialect body span f s =
        .error (.defect (.missingBlock f.block)) s := by
      simp [Lowering.lowerBlock, addBlock, hb]
    rw [hrun]
    trivial
  | some b =>
    have hlt : f.block < s.session.blocks.size := (Array.getElem?_eq_some_iff.mp hb).1
    have hopen : Opens f.site s.session
        { block := s.session.blocks.size, scope := f.scope, dialect }
        (s.session.openBlock f dialect) Eq :=
      .block (f := f.site) dialect (Option.isSome_iff_exists.mpr ⟨b, hb⟩)
    have hne : s.session.blocks.size ≠ f.block := by omega
    have hunit := lowerUnit_settled h s.session.blocks.size f.scope dialect body [] f
      { s with session := s.session.openBlock f dialect }
    rw [lowerBlock_run statement dialect body span (by simp [hb]), run_bind]
    revert hunit
    generalize lowerUnit statement s.session.blocks.size f.scope dialect body [] f
      { s with session := s.session.openBlock f dialect } = r
    rcases r with ⟨_, t⟩ | ⟨_ | _, t⟩
    · intro ht
      refine Settled.after (.through hopen hne ht rfl) ?_
      have hbounce (entry : Nat) := (Evolving.straight fun _ => id).emitBounce s.session.blocks.size entry span
      exact Evolving.bind (Evolving.quiet.getBlock _) (fun _ => .bind (hbounce _) fun _ => .pure _) f t
    · exact fun ht => .through hopen hne ht rfl
    · exact id

end

/-! ## Procedures -/

/-- A procedure is registered, or its class is missing. -/
theorem registerProcedure_cases (p : Procedure) (f : Frame) (s : State) :
    ((∀ cls, Session.ownerClass f.scope = some cls → (s.session.classes.get? cls).isSome) ∧
      registerProcedure p f s =
        .ok (s.session.nextProcedure f.scope)
          { s with session := s.session.register f.scope p }) ∨
    ∃ d, registerProcedure p f s = .error (.defect d) s := by
  unfold registerProcedure Session.nextProcedure Session.register
  simp only [run_bind, run_read, run_getSession]
  cases howner : Session.ownerClass f.scope with
  | none =>
    unfold Session.ownerClass at howner
    refine .inl ⟨?_, ?_⟩
    · intro _ h
      cases h
    · rw [howner]
      rfl
  | some cls =>
    unfold Session.ownerClass at howner
    rw [howner]
    cases hc : s.session.classes.get? cls with
    | none => exact .inr ⟨.missingClass cls, by simp [hc]⟩
    | some c =>
      refine .inl ⟨?_, by simp [hc]⟩
      intro _ h
      cases h
      simp [hc]

/-- What is left of a definition once its header has been resolved. -/
def lowerBody (statement : LowerStatement) (f : Function) (p : Procedure) : Lower Unit := do
  let r ← registerProcedure p
  let frame ← read
  let body ← addBlock .function frame.dialect frame.block
  modifyBlock body fun b => { b with procedure := some r }
  modifySession fun s => s.modifyProcedure r fun p => { p with block := some body }
  note .debug .code ("procedure '" ++ f.name ++ "' in block " ++ toString body)
  let scope : Scope := { classScope := r.classScope, procedure := some r, body := some body }
  let locals ← countingLocals (lowerUnit statement body scope frame.dialect f.body p.args)
  let entry := (← getBlock body).entry
  modifySession fun s => s.modifyProcedure r fun p => { p with entry, locals }

theorem lowerFunction_eq (statement : LowerStatement) (f : Function) (isGenerated : Bool) :
    lowerFunction statement f isGenerated = (do
      let returns ← resolveType f.returns f.span
      let args ← resolveParams f.params
      let attributes ← lowerAttributes f.attributes
      lowerBody statement f
        { name := f.name, returns, args, isConstructor := f.isConstructor, isStatic := f.isStatic
          isGenerated, access := f.access, attributes }) := rfl

/-- The frame of the body of the next procedure. -/
def bodyFrame (f : Frame) (s : Session) : Frame :=
  { block := s.blocks.size
    scope :=
      { classScope := (s.nextProcedure f.scope).classScope
        procedure := some (s.nextProcedure f.scope)
        body := some s.blocks.size }
    dialect := f.dialect }

/-- The log line of a procedure. -/
def bodyMessage (name : String) (block : Nat) : String :=
  "procedure '" ++ name ++ "' in block " ++ toString block

theorem lowerBody_run (statement : LowerStatement) (fn : Function) (p : Procedure) {f : Frame}
    {s : State} (hb : (s.session.block? f.block).isSome)
    (hr : registerProcedure p f s =
      .ok (s.session.nextProcedure f.scope) { s with session := s.session.register f.scope p }) :
    lowerBody statement fn p f s =
      match
        lowerUnit statement s.session.blocks.size (bodyFrame f s.session).scope f.dialect fn.body
          p.args f
          { s with
            session :=
              s.session.openProcedure f p (bodyMessage fn.name s.session.blocks.size) } with
      | .ok _ t =>
        (do
          let entry := (← getBlock s.session.blocks.size).entry
          modifySession fun u => u.modifyProcedure (s.session.nextProcedure f.scope) fun p =>
            { p with entry, locals := t.session.counters.locals }) f
          { t with session := t.session.setLocals s.session.counters.locals }
      | .error e t =>
        .error e { t with session := t.session.setLocals s.session.counters.locals } := by
  obtain ⟨b, hb⟩ := Option.isSome_iff_exists.mp hb
  have hb' : (s.session.register f.scope p).block? f.block = some b := by
    simpa [Session.block?] using hb
  have hnew : (((s.session.register f.scope p).addBlock .function f.dialect
      (some f.block)).block? s.session.blocks.size).isSome := by
    simp [Session.addBlock, Session.block?]
  obtain ⟨c, hc⟩ := Option.isSome_iff_exists.mp hnew
  have hcount : ∀ u : Session, ∀ id g r k level topic message,
      (((u.modifyBlock id g).modifyProcedure r k).note level topic message).counters = u.counters :=
    fun u id g r k _ _ _ => Session.counters_modifyProcedure (u.modifyBlock id g) r k
  simp only [lowerBody, addBlock, run_bind, hr, run_read, run_getSession, Session.blocks_register,
    run_getBlock, hb', run_modifySession, run_pure, modifyBlock_run, hc, run_note,
    run_countingLocals, hcount, Session.counters_addBlock, Session.counters_register, bodyFrame,
    bodyMessage, Session.openProcedure]
  generalize lowerUnit _ _ _ _ _ _ _ _ = r
  cases r <;> rfl

theorem Evolving.lowerBody {K : OpCode → Prop} {statement : LowerStatement}
    (h : ∀ n, Evolving (fun _ => True) (statement n)) (fn : Function) (p : Procedure) :
    Evolving K (lowerBody statement fn p) := by
  intro f s
  rcases registerProcedure_cases p f s with ⟨hcls, hr⟩ | ⟨d, hr⟩
  case inr =>
    have hrun : Lowering.lowerBody statement fn p f s = .error (.defect d) s := by
      simp [Lowering.lowerBody, hr]
    rw [hrun]
    trivial
  cases hb : s.session.block? f.block with
  | none =>
    have hb' : (s.session.register f.scope p).block? f.block = none := by
      simpa [Session.block?] using hb
    have hrun : Lowering.lowerBody statement fn p f s = .error (.defect (.missingBlock f.block))
        { s with session := s.session.register f.scope p } := by
      simp [Lowering.lowerBody, hr, addBlock, hb']
    rw [hrun]
    trivial
  | some b =>
    have hlt : f.block < s.session.blocks.size := (Array.getElem?_eq_some_iff.mp hb).1
    have hsome : (s.session.block? f.block).isSome := Option.isSome_iff_exists.mpr ⟨b, hb⟩
    have hopen := Opens.procedure (f := f.site) p (bodyMessage fn.name s.session.blocks.size) hsome
      hcls
    have hne : (bodyFrame f s.session).block ≠ f.block := by
      change s.session.blocks.size ≠ f.block
      omega
    have hunit := lowerUnit_settled h s.session.blocks.size (bodyFrame f s.session).scope f.dialect
      fn.body p.args f { s with
        session := s.session.openProcedure f p (bodyMessage fn.name s.session.blocks.size) }
    rw [lowerBody_run statement fn p hsome hr]
    revert hunit
    generalize lowerUnit _ _ _ _ _ _ _ _ = r
    rcases r with ⟨_, t⟩ | ⟨_ | _, t⟩
    · intro ht
      simp only [run_bind, run_getBlock]
      cases (t.session.setLocals s.session.counters.locals).block? s.session.blocks.size with
      | none => trivial
      | some c => exact .through hopen hne ht (.inr ⟨c.entry, rfl⟩)
    · exact fun ht => .through hopen hne ht (.inl rfl)
    · exact id

theorem Evolving.lowerFunction {K : OpCode → Prop} {statement : LowerStatement}
    (h : ∀ n, Evolving (fun _ => True) (statement n)) (fn : Function) (isGenerated : Bool) :
    Evolving K (lowerFunction statement fn isGenerated) := by
  rw [lowerFunction_eq]
  refine .bind (Evolving.quiet.resolveType _ _) fun _ => .bind (Evolving.quiet.resolveParams _) fun _ => ?_
  exact .bind (Evolving.quiet.lowerAttributes _) fun _ => .lowerBody h fn _

/-! ## Classes -/

/-- Outside of classes and procedures, a class evolves the session; its body is lowered in its own
scope. -/
theorem lowerClass_settled {K : OpCode → Prop} {statement : LowerStatement}
    (h : ∀ n, Evolving (fun _ => True) (statement n)) (c : ClassDecl) {f : Frame} (s : State)
    (hp : f.scope.procedure = none) (hc : f.scope.classScope = none) :
    Settled K f s (lowerClass statement c f s) := by
  refine .bind (Evolving.quiet.resolveBase c f s) fun base s => ?_
  refine .bind (Evolving.quiet.lowerAttributes _ f s) fun attributes s => ?_
  simp only [run_bind, run_getSession]
  cases happ : s.session.classes.append? { name := c.name, base, attributes } with
  | none => exact Evolving.halt _ _ _ f s
  | some classes =>
    have hopen := Opens.cls (f := f.site) { name := c.name, base, attributes } classes hp hc rfl
      happ
    have hbody := Evolving.bind (K := K)
      (.note .debug .code ("class '" ++ c.name ++ "' is #" ++ toString s.session.classes.size))
      (fun _ => Evolving.quiet.lowerClassBody (Evolving.lowerFunction h) c) { f with scope := .inClass s.session.classes.size }
      { s with session := { s.session with classes } }
    simp only [run_bind, run_modifySession, run_note, run_withReader] at hbody ⊢
    revert hbody
    generalize lowerClassBody statement c _ _ = r
    rcases r with ⟨_, t⟩ | ⟨_ | _, t⟩
    · intro ht
      exact .inner (.refl _ _ _) hopen (Evolves.mono ht fun op hop _ => hop) rfl
    · intro ht
      exact .inner (.refl _ _ _) hopen (Evolves.mono ht fun op hop _ => hop) rfl
    · exact id

theorem Evolving.lowerTopLevelClass {K : OpCode → Prop} {statement : LowerStatement}
    (h : ∀ n, Evolving (fun _ => True) (statement n)) (c : ClassDecl) :
    Evolving K (lowerTopLevelClass statement c) := by
  intro f s
  simp only [Lowering.lowerTopLevelClass, mayDeclareClass, run_bind, run_read, run_getBlock,
    run_pure]
  cases hb : s.session.block? f.block with
  | none => trivial
  | some b =>
    simp only [run_ite]
    split
    · rename_i hmay
      simp only [Bool.and_eq_true, Option.isNone_iff_eq_none] at hmay
      exact lowerClass_settled h c s hmay.1.2 hmay.2
    · exact Evolving.halt _ _ _ f s

/-! ## All statements -/

namespace Evolving

theorem free : StatementRule (Evolving fun _ => True) where
  toStraightRule := straight fun _ _ => trivial
  emitJmp _ _ := emitStepping trivial _ _
  emitCjmp _ _ _ := bind getSession fun _ => ite (emitSilent trivial _) (emitStepping trivial _ _)
  emitJz _ _ := emitStepping trivial _ _
  emitLeave := emitLeave
  patch := patch fun _ _ => trivial
  lowerBlock h dialect body span := (lowerBlock h dialect body span).mono fun _ _ => trivial
  lowerFunction := lowerFunction
  lowerTopLevelClass := lowerTopLevelClass

theorem lowerStatement_assign (statement : LowerStatement) (target value : Node) (span : Span) :
    Evolving OpCode.IsStraight (lowerStatement statement (.assign target value span)) := by
  refine bind read fun f => ?_
  cases f.dialect with
  | associative => exact bind (lowerUpdate _ _ _) fun _ => pure _
  | imperative => exact bind (lowerAssignment _ _) fun _ => pure _

theorem statementWithin_assign (depth : Nat) (target value : Node) (span : Span) :
    Evolving OpCode.IsStraight (statementWithin depth (.assign target value span)) := by
  cases depth with
  | zero => exact defect _
  | succ depth => exact lowerStatement_assign _ _ _ _

theorem statement_assign (target value : Node) (span : Span) :
    Evolving OpCode.IsStraight (Lowering.statement (.assign target value span)) := by
  unfold Lowering.statement
  exact statementWithin_assign _ _ _ _

theorem statementWithin (depth : Nat) (node : Node) : Evolving (fun _ => True) (statementWithin depth node) :=
  free.statementWithin depth node

theorem statement (node : Node) : Evolving (fun _ => True) (statement node) := free.statement node

end Evolving

end Diglot.Lowering
