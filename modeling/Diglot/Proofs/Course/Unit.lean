import Diglot.Proofs.Depth
import Diglot.Proofs.Evolution.Statement
import Diglot.Proofs.Tables.Invariant

/-! # Units and their frames

A language block and the body of a procedure are lowered as units of their own: in a new block, from a
state of their own, in an inner frame. `lowerInner_run` and `lowerBody_cases` take such a run apart
into its opening, the code of the unit (`lowerCode`), and its closing. `compile_eq` and
`watchExpression_eq` do the same for the calls on a session.
-/

set_option autoImplicit false

namespace Diglot

open Lowering

namespace Lowering

/-- Declares the parameters of a procedure. -/
def declareParams (params : List Argument) : Lower Unit :=
  params.forM fun p => do
    let _ ← allocate { name := p.name, type := p.type, isParameter := true }

/-- The statements of a unit and what closes it. -/
def lowerCode (unit : List Node) : Lower Unit := do
  let _ ← lowerAll statement unit
  closeUnit unit

theorem run_declareParams_nil (f : Frame) (s : State) : declareParams [] f s = .ok () s := rfl

theorem lowerUnit_eq (block : Nat) (scope : Scope) (dialect : Dialect) (unit : List Node)
    (params : List Argument) :
    lowerUnit statement block scope dialect unit params =
      nested (unitFrame block scope dialect unit) (do
        declareParams params
        lowerCode unit) := rfl

/-- Lowers a language block, and tells which block it is. -/
def lowerInner (dialect : Dialect) (body : List Node) : Lower Nat := do
  let frame ← read
  let child ← addBlock .language dialect frame.block
  modifyBlock child fun b => { b with procedure := frame.scope.procedure }
  lowerUnit statement child frame.scope dialect body []
  return child

theorem lowerBlock_eq (dialect : Dialect) (body : List Node) (span : Span) :
    lowerBlock statement dialect body span = (do
      let child ← lowerInner dialect body
      let entry := (← getBlock child).entry.getD 0
      let _ ← emitBounce child entry span) := by
  simp only [lowerBlock, lowerInner, bind_assoc, pure_bind]

/-- The frame in which the code of the next procedure is lowered. -/
def bodyUnit (f : Frame) (s : Session) (unit : List Node) : Frame :=
  unitFrame s.blocks.size (bodyFrame f s).scope f.dialect unit

theorem lowerInner_error (dialect : Dialect) (body : List Node) {f : Frame} {s : State}
    (h : s.session.block? f.block = none) :
    lowerInner dialect body f s = .error (.defect (.missingBlock f.block)) s := by
  simp [lowerInner, addBlock, h]

theorem lowerInner_run (dialect : Dialect) (body : List Node) {f : Frame} {s : State}
    (h : (s.session.block? f.block).isSome) :
    lowerInner dialect body f s =
      match lowerCode body (unitFrame s.session.blocks.size f.scope dialect body)
          { session := s.session.openBlock f dialect } with
      | .ok _ t => .ok s.session.blocks.size { s with session := t.session }
      | .error e t => .error e t := by
  obtain ⟨b, hb⟩ := Option.isSome_iff_exists.mp h
  have hnew : ((s.session.addBlock .language dialect (some f.block)).block?
      s.session.blocks.size).isSome := by
    simp [Session.addBlock, Session.block?]
  obtain ⟨c, hc⟩ := Option.isSome_iff_exists.mp hnew
  simp only [lowerInner, addBlock, run_bind, run_read, run_getSession, run_getBlock, hb,
    run_modifySession, run_pure, modifyBlock_run, hc, lowerUnit_eq, run_nested,
    run_declareParams_nil, Session.openBlock]
  generalize lowerCode body _ _ = r
  cases r <;> rfl

/-- The header of a procedure is registered, and its body is lowered in a frame of its own. -/
theorem lowerBody_cases (fn : Function) (p : Procedure) (f : Frame) (s : State) :
    ((s.session.block? f.block).isSome ∧
      (∀ cls, Session.ownerClass f.scope = some cls → (s.session.classes.get? cls).isSome) ∧
      lowerBody statement fn p f s =
        match
          (do
            declareParams p.args
            lowerCode fn.body) (bodyUnit f s.session fn.body)
            { session :=
                s.session.openProcedure f p (bodyMessage fn.name s.session.blocks.size) } with
        | .ok _ t =>
          (do
            let entry := (← getBlock s.session.blocks.size).entry
            modifySession fun u => u.modifyProcedure (s.session.nextProcedure f.scope) fun p =>
              { p with entry, locals := t.session.counters.locals }) f
            { s with session := t.session.setLocals s.session.counters.locals }
        | .error e t =>
          .error e { t with session := t.session.setLocals s.session.counters.locals }) ∨
    (((s.session.block? f.block) = none ∨
        ∃ cls, Session.ownerClass f.scope = some cls ∧ s.session.classes.get? cls = none) ∧
      ∃ d t, lowerBody statement fn p f s = .error (.defect d) t ∧
        t.session.diagnostics = s.session.diagnostics) := by
  rcases registerProcedure_cases p f s with ⟨hcls, hr⟩ | ⟨d, hr⟩
  case inr =>
    refine .inr ⟨.inr ?_, d, s, by simp [lowerBody, hr], rfl⟩
    unfold registerProcedure at hr
    simp only [run_bind, run_read, run_getSession] at hr
    cases hown : Session.ownerClass f.scope with
    | none =>
      unfold Session.ownerClass at hown
      rw [hown] at hr
      cases hr
    | some cls =>
      refine ⟨cls, rfl, ?_⟩
      unfold Session.ownerClass at hown
      cases hc : s.session.classes.get? cls with
      | none => rfl
      | some c =>
        rw [hown] at hr
        dsimp only at hr
        rw [hc] at hr
        cases hr
  cases hb : s.session.block? f.block with
  | none =>
    have hb' : (s.session.register f.scope p).block? f.block = none := by
      simpa [Session.block?] using hb
    refine .inr ⟨.inl rfl, .missingBlock f.block,
      { s with session := s.session.register f.scope p }, by simp [lowerBody, hr, addBlock, hb'], ?_⟩
    change (s.session.register f.scope p).diagnostics = _
    unfold Session.register
    split <;> rfl
  | some b =>
    refine .inl ⟨rfl, hcls, ?_⟩
    rw [lowerBody_run statement fn p (by rw [hb]; rfl) hr, lowerUnit_eq, run_nested]
    unfold bodyUnit
    generalize (declareParams p.args >>= fun _ => lowerCode fn.body) _ _ = r
    cases r <;> rfl

/-- A class is laid out by its members and by its procedures, made-up ones included, whose bodies are
lighter than the class. -/
theorem lowerClassBody_rule {J : Lower Unit → Prop} (hpure : J (pure ()))
    (hbind : ∀ {m k : Lower Unit}, J m → J k → J (m >>= fun _ => k)) (c : ClassDecl)
    (hmembers : J (lowerMembers c.members))
    (hfunction : ∀ (fn : Function) (isGenerated : Bool), (∀ n ∈ fn.body, n.weight < c.weight) →
      J (lowerFunction statement fn isGenerated)) : J (lowerClassBody statement c) := by
  have hforM {α : Type} {l : List α} {k : α → Lower Unit} (h : ∀ a ∈ l, J (k a)) :
      J (l.forM k) := by
    induction l with
    | nil => exact hpure
    | cons a rest ih =>
      exact hbind (h a (List.mem_cons_self ..)) (ih fun b hb => h b (List.mem_cons_of_mem a hb))
  refine hbind hmembers (hbind (hforM fun v hv => ?_) (hbind (hforM fun fn hfn => ?_)
    (hbind (hforM fun fn hfn => ?_) ?_)))
  · have hlt := weight_member_lt (List.mem_filter.mp hv).1
    refine hbind (hfunction _ _ fun n hn => ?_) (hfunction _ _ fun n hn => ?_)
    · exact Nat.lt_of_le_of_lt (weight_accessor_le (.inl hn)) hlt
    · exact Nat.lt_of_le_of_lt (weight_accessor_le (.inr hn)) hlt
  · unfold staticInitializer? at hfn
    split at hfn
    · cases hfn
    · rw [List.mem_singleton.mp hfn]
      exact hfunction _ _ fun n hn => weight_initializers_lt hn
  · exact hfunction _ _ fun n hn => weight_withInitializers_lt hfn hn
  · split
    · exact hfunction _ _ fun n hn => weight_initializers_lt hn
    · exact hpure

end Lowering

namespace Session

theorem lower_eq {α : Type} (s : Session) (f : Frame) (m : Lower α) :
    s.lower f m =
      match m f { session := s } with
      | .ok a t => (.ok a, t.session)
      | .error stop t => (.error (.ofStop stop), t.session) := rfl

/-- A call compiles the code of its unit. -/
theorem compile_eq (s : Session) (unit : List Node) (dialect : Dialect) :
    s.compile unit dialect =
      match lowerCode unit (unitFrame (s.unitStart dialect).1 .global dialect unit)
          { session := (s.unitStart dialect).2 } with
      | .ok _ t => (.ok (s.unitStart dialect).1, t.session)
      | .error stop t => (.error (.ofStop stop), t.session) := by
  have hlower : s.compile unit dialect = (s.unitStart dialect).2.lower (s.unitSite dialect) (do
      lowerUnit statement (s.unitStart dialect).1 .global dialect unit []
      return (s.unitStart dialect).1) := rfl
  rw [hlower, lower_eq]
  simp only [lowerUnit_eq, run_bind, run_nested, run_declareParams_nil, run_pure]
  generalize lowerCode unit _ _ = r
  cases r <;> rfl

/-- A watch expression is lowered in the scope of its block. -/
theorem watchExpression_eq {s : Session} {id : Nat} {b : Block} (hb : s.block? id = some b)
    (node : Node) :
    s.watchExpression id node =
      match lowerWatch node (s.watchSite id b) { session := { s with isWatching := true } } with
      | .ok entry t => (.ok entry, { t.session with isWatching := false })
      | .error stop t => (.error (.ofStop stop), { t.session with isWatching := false }) := by
  have hlower : s.watchExpression id node =
      ({ s with isWatching := true }.lower (s.watchSite id b) (lowerWatch node)).map (fun result => result)
        fun (t : Session) => { t with isWatching := false } := by
    unfold watchExpression
    rw [hb]
    rfl
  rw [hlower, lower_eq]
  cases lowerWatch node (s.watchSite id b) _ <;> rfl

end Session

end Diglot
