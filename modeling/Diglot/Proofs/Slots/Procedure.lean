import Diglot.Proofs.Closed.Session
import Diglot.Proofs.Slots.Frame

/-! # Frames of whole procedures

A language block shares the frame of the procedure around it. A procedure inside of another one starts
with an empty frame, and the frame around it is as before when it is closed. `Course.holds` puts this
together: after every run, those procedures are filled that were lowered to the end, also if the run
halted in the middle of others.
-/

set_option autoImplicit false

namespace Diglot.Lowering

open Session

variable {w : Bool} {W : SymbolRef → Prop} {s t u : Session} {f g : Frame}

/-! ## Language blocks -/

theorem InFrame.openBlock (h : InFrame w W f s) (dialect : Dialect) (body : List Node) :
    InFrame w W (unitFrame s.blocks.size f.scope dialect body) (s.openBlock f dialect) := by
  obtain ⟨hd, hs, hproc⟩ := h.placed.block
  have hblock : (s.block? f.block).isSome := by
    rw [← header?_isSome, hs]
    rfl
  have hopen := Opens.block (f := f) dialect hblock
  have hnew := s.header?_openBlock f dialect
  have hprocs : (s.openBlock f dialect).procedure? = s.procedure? := procedure?_congr rfl rfl
  have hsame (r : ProcRef) : SameLocals W r s (s.openBlock f dialect) :=
    sameLocals_of_new hnew hopen.symbol?_eq
  have hinner : InFrame w W { block := s.blocks.size, scope := f.scope, dialect }
      (s.openBlock f dialect) := by
    refine ⟨hopen.coherent h.coherent h.placed, hopen.placed h.placed, hopen.isWatching_eq.trans h.mode,
      h.foretells.grows hopen.grows, fun r p hp hentry ⟨owner, howner⟩ => ?_, fun hw r hr => ?_⟩
    · rw [hprocs] at hp
      refine (h.done r p hp hentry ?_).congr (hsame r)
      rw [procedureOf?_of_new hnew] at howner
      split at howner
      · refine ⟨.block f.block, ?_⟩
        rw [procedureOf?_eq, hs]
        exact hproc.trans howner
      · exact ⟨owner, howner⟩
    · obtain ⟨hpacked, hentry⟩ := h.current hw r hr
      rw [hprocs]
      refine ⟨?_, hentry⟩
      exact hpacked.congr (hsame r)
  exact hinner.site rfl

/-- What a language block leaves behind. -/
theorem InFrame.closeBlock (h : InFrame w W f s) {dialect : Dialect} {body : List Node}
    (ht : Advanced w W (unitFrame s.blocks.size f.scope dialect body) (s.openBlock f dialect) t) :
    Advanced w W f s t := by
  have hgrows := (s.grows_openBlock f dialect).trans ht.grows
  have hnew := s.header?_openBlock f dialect
  refine ⟨⟨ht.inFrame.coherent, h.placed.keeps hgrows.keeps, ht.inFrame.mode, ht.inFrame.foretells,
    ht.inFrame.done, ht.inFrame.current⟩, ?_, hgrows⟩
  have hopen : Apart w W f s (s.openBlock f dialect) :=
    fun r _ _ => ⟨sameLocals_of_new hnew (symbol?_of_new hnew rfl), congrFun (procedure?_congr rfl rfl) r⟩
  exact hopen.trans ht.apart

/-! ## Parameters -/

/-- The first `n` symbols of the current block are the parameters in question, at the first places of
the frame. -/
def ParamsAt (W : SymbolRef → Prop) (r : ProcRef) (body n : Nat) (params : List Argument)
    (s : Session) : Prop :=
  ∀ i arg, params[i]? = some arg → ∃ x, s.IsLocalOf W r ⟨.block body, n + i⟩ x ∧
    x.name = arg.name ∧ x.type = arg.type ∧ x.isParameter = true ∧ x.offset = localPlace (n + i)

theorem ParamsAt.grows {r : ProcRef} {body n : Nat} {params : List Argument}
    (h : ParamsAt W r body n params s) (hst : s.Grows t) : ParamsAt W r body n params t := by
  intro i arg harg
  obtain ⟨x, hx, hrest⟩ := h i arg harg
  exact ⟨x, hx.grows hst, hrest⟩

/-- The parameters of a procedure are declared one by one, at the end of the table of its body. -/
theorem run_declareParams {r : ProcRef} {params : List Argument} {u v : State}
    (h : InFrame false W f u.session) (hr : f.scope.procedure = some r)
    (hfirst : (u.session.next (.block f.block)).index = u.session.counters.locals)
    (hrun : declareParams params f u = .ok () v) :
    Advanced false W f u.session v.session ∧
      ParamsAt W r f.block u.session.counters.locals params v.session := by
  induction params generalizing u with
  | nil =>
    cases hrun
    exact ⟨.refl h, fun i arg harg => by cases harg⟩
  | cons p rest ih =>
    let d : Declaration := { name := p.name, type := p.type, isParameter := true }
    have hcons : declareParams (p :: rest) f u =
        ((do let _ ← allocate d) >>= fun _ => declareParams rest : Lower Unit) f u := rfl
    rw [hcons] at hrun
    rcases allocate_cases d f u with ⟨hcan, a, hd⟩ | ⟨e, t, hd⟩
    case inr =>
      simp only [run_bind, hd] at hrun
      cases hrun
    simp only [run_bind, hd, run_pure] at hrun
    have hstep := h.declare (K := fun _ => True) (.declare d hcan)
    have hbucket : bucketOf u.session.isWatching f.scope d.isStatic = .frame :=
      bucketOf_eq_frame.mpr ⟨h.mode, by rw [hr]; rfl⟩
    have hlocals : (u.session.declare f d).counters.locals = u.session.counters.locals + 1 := by
      rw [locals_declare, if_pos hbucket]
    have hnext : ((u.session.declare f d).next (.block f.block)).index =
        (u.session.declare f d).counters.locals := by
      rw [hlocals, ← hfirst]
      exact index_next_declare h.placed d (by rw [hr]; rfl)
    obtain ⟨hrest, hparams⟩ := ih (u := { u with session := u.session.declare f d }) hstep.inFrame
      hnext hrun
    refine ⟨hstep.trans hrest, fun i arg harg => ?_⟩
    cases i with
    | zero =>
      cases harg
      have hlocal := (h.declared_isLocalOf d rfl hr).grows hrest.grows
      have hplace : u.session.next (.block f.block) =
          ⟨.block f.block, u.session.counters.locals⟩ := by
        rw [← hfirst]
        rfl
      rw [hplace] at hlocal
      exact ⟨_, hlocal, rfl, rfl, rfl, offset_declared hbucket⟩
    | succ i =>
      obtain ⟨x, hx, hname, htype, hparam, hoffset⟩ := hparams i arg harg
      have hindex : u.session.counters.locals + (i + 1) =
          (u.session.declare f d).counters.locals + i := by omega
      rw [hindex]
      exact ⟨x, hx, hname, htype, hparam, hoffset⟩

theorem declareParams_error {params : List Argument} {u v : State} {e : Stop}
    (h : declareParams params f u = .error e v) : ∃ d, e = .defect d := by
  induction params generalizing u with
  | nil => cases h
  | cons p rest ih =>
    let d : Declaration := { name := p.name, type := p.type, isParameter := true }
    have hcons : declareParams (p :: rest) f u =
        ((do let _ ← allocate d) >>= fun _ => declareParams rest : Lower Unit) f u := rfl
    rw [hcons] at h
    rcases allocate_cases d f u with ⟨_, a, hd⟩ | ⟨e, t, hd⟩
    · simp only [run_bind, hd, run_pure] at h
      exact ih h
    · simp only [run_bind, hd] at h
      cases h
      exact ⟨_, rfl⟩

/-! ## Procedures -/

theorem procedure?_openProcedure_of_some {r : ProcRef} {q : Procedure} (h : s.procedure? r = some q)
    (f : Frame) (p : Procedure) (message : String) :
    (s.openProcedure f p message).procedure? r = some q := by
  obtain ⟨hclasses, hprocedures⟩ := tables_openProcedure s f p message
  have hne : s.nextProcedure f.scope ≠ r := by
    rintro rfl
    rw [procedure?_nextProcedure] at h
    cases h
  rw [procedure?_congr hclasses hprocedures, procedure?_modifyProcedure, if_neg hne]
  exact procedure?_register_of_some h f.scope p

/-- The new procedure knows its body, and what was registered otherwise. -/
theorem procedure?_openProcedure_next {p q : Procedure} {message : String}
    (h : (s.openProcedure f p message).procedure? (s.nextProcedure f.scope) = some q) :
    q.args = p.args ∧ q.entry = p.entry ∧ q.block = some s.blocks.size := by
  obtain ⟨hclasses, hprocedures⟩ := tables_openProcedure s f p message
  rw [procedure?_congr hclasses hprocedures, procedure?_modifyProcedure, if_pos rfl] at h
  obtain ⟨q', hq', rfl⟩ := Option.map_eq_some_iff.mp h
  have hnew : q'.args = p.args ∧ q'.entry = p.entry := by
    unfold register nextProcedure at hq'
    cases howner : ownerClass f.scope with
    | none =>
      rw [howner] at hq'
      have hget := ProcedureTable.get?_append_size s.procedures p
      rw [procedure?_none] at hq'
      cases hget.symm.trans hq'
      exact ⟨rfl, rfl⟩
    | some cls =>
      rw [howner] at hq'
      dsimp only [ClassTable.appendProcedure] at hq'
      rw [procedure?_some, ClassTable.get?_modify, if_pos rfl] at hq'
      cases hc : s.classes.get? cls with
      | none =>
        rw [hc] at hq'
        cases hq'
      | some c =>
        rw [hc] at hq'
        have hget := ProcedureTable.get?_append_size c.procedures { p with classScope := some cls }
        cases hget.symm.trans hq'
        exact ⟨rfl, rfl⟩
  exact ⟨hnew.1, hnew.2, rfl⟩

theorem InFrame.registered {r : ProcRef} (h : InFrame w W f s) (hr : f.scope.procedure = some r) :
    (s.procedure? r).isSome := by
  obtain ⟨hd, hs, hproc⟩ := h.placed.block
  have howner : s.procedureOf? (.block f.block) = some r := by
    rw [procedureOf?_eq, hs]
    exact hproc.trans hr
  exact registered_of_defined h.coherent howner

theorem not_defined_next (h : s.Coherent) (scope : Scope) (owner : Owner) :
    s.procedureOf? owner ≠ some (s.nextProcedure scope) := by
  intro howner
  have hr := registered_of_defined h howner
  rw [procedure?_nextProcedure] at hr
  cases hr

theorem kept_openProcedure {r : ProcRef} (hr : (s.procedure? r).isSome) (f : Frame) (p : Procedure)
    (message : String) :
    SameLocals W r s (s.openProcedure f p message) ∧
      (s.openProcedure f p message).procedure? r = s.procedure? r := by
  obtain ⟨q, hq⟩ := Option.isSome_iff_exists.mp hr
  refine ⟨sameLocals_of_new (s.header?_openProcedure f p message)
    (s.symbol?_openProcedure f p message), ?_⟩
  rw [procedure?_openProcedure_of_some hq, hq]

/-- The new procedure has no locals yet. -/
theorem InFrame.openProcedure (h : InFrame false W f s) {p : Procedure} (hentry : p.entry = none)
    (hblock : (s.block? f.block).isSome)
    (hcls : ∀ cls, ownerClass f.scope = some cls → (s.classes.get? cls).isSome) (message : String)
    (body : List Node) : InFrame false W (bodyUnit f s body) (s.openProcedure f p message) := by
  have hopen := Opens.procedure (f := f) p message hblock hcls
  have hnew := s.header?_openProcedure f p message
  have hinner : InFrame false W (bodyFrame f s) (s.openProcedure f p message) := by
    refine ⟨hopen.coherent h.coherent h.placed, hopen.placed h.placed, hopen.isWatching_eq.trans h.mode,
      h.foretells.grows hopen.grows, fun r q hq hdone ⟨owner, howner⟩ => ?_, fun _ r hr => ?_⟩
    · rw [procedureOf?_of_new hnew] at howner
      split at howner
      · cases howner
        rw [(procedure?_openProcedure_next hq).2.1, hentry] at hdone
        cases hdone
      · obtain ⟨q', hq'⟩ := Option.isSome_iff_exists.mp (registered_of_defined h.coherent howner)
        cases (procedure?_openProcedure_of_some hq' f p message).symm.trans hq
        exact (h.done r q hq' hdone ⟨owner, howner⟩).congr
          (sameLocals_of_new hnew hopen.symbol?_eq)
    · cases hr
      have hlocals : (s.openProcedure f p message).counters.locals = 0 := rfl
      have hnone (a : SymbolRef) (x : Symbol) :
          ¬ (s.openProcedure f p message).IsLocalOf W (s.nextProcedure f.scope) a x := by
        intro hx
        have hold := (sameLocals_of_new hnew hopen.symbol?_eq a x).mp hx
        exact not_defined_next h.coherent f.scope a.owner hold.2.1
      rw [hlocals]
      refine ⟨⟨.ofNone hnone, fun k hk => absurd hk (Nat.not_lt_zero k)⟩, fun q hq => ?_⟩
      obtain ⟨_, hentry', hbody⟩ := procedure?_openProcedure_next hq
      exact ⟨hentry'.trans hentry, hbody⟩
  exact hinner.site rfl

/-- The session with a procedure that was lowered to the end, and the count of locals around it. -/
def finishProcedure (u : Session) (outer : Nat) (r : ProcRef) (entry : Option Nat) : Session :=
  (u.setLocals outer).modifyProcedure r fun p => { p with entry, locals := u.counters.locals }

section Finish

variable (u : Session) (outer : Nat) (r : ProcRef) (entry : Option Nat)

theorem grows_finishProcedure : u.Grows (finishProcedure u outer r entry) := by
  have hlocals : u.Grows (u.setLocals outer) := grows_of_tables rfl rfl rfl
  refine hlocals.trans (grows_modifyProcedure _ r ?_)
  exact fun _ => rfl

theorem coherent_finishProcedure (h : u.Coherent) : (finishProcedure u outer r entry).Coherent := by
  have hlocals : (u.setLocals outer).Coherent := h.congr rfl rfl rfl
  refine hlocals.modifyProcedure r ?_
  exact fun _ => rfl

theorem sameLocals_finishProcedure (q : ProcRef) :
    SameLocals W q u (finishProcedure u outer r entry) := by
  refine sameLocals_of_tables (symbol?_modifyProcedure _ r _) (procedureOf?_of_headers ?_)
  unfold finishProcedure modifyProcedure
  split <;> rfl

theorem defined_finishProcedure (owner : Owner) :
    (finishProcedure u outer r entry).procedureOf? owner = u.procedureOf? owner := by
  refine congrFun (procedureOf?_of_headers ?_) owner
  unfold finishProcedure modifyProcedure
  split <;> rfl

theorem procedure?_finishProcedure (q : ProcRef) :
    (finishProcedure u outer r entry).procedure? q =
      if r = q then (u.procedure? q).map fun p => { p with entry, locals := u.counters.locals }
      else u.procedure? q :=
  procedure?_modifyProcedure (u.setLocals outer) r q _

end Finish

section Close

variable {p : Procedure} {message : String} {body : List Node}
  (hu : Advanced false W (bodyUnit f s body) (s.openProcedure f p message) u)

include hu

/-- The procedures that were there before the new one are as they were. -/
theorem Advanced.kept {q : ProcRef} (hq : (s.procedure? q).isSome) (outer : Nat)
    (entry : Option Nat) :
    let v := finishProcedure u outer (s.nextProcedure f.scope) entry
    SameLocals W q s v ∧ v.procedure? q = s.procedure? q := by
  have hne : s.nextProcedure f.scope ≠ q := by
    rintro rfl
    rw [procedure?_nextProcedure] at hq
    cases hq
  obtain ⟨hlocals, hproc⟩ := kept_openProcedure (W := W) hq f p message
  obtain ⟨hlocals', hproc'⟩ := hu.apart q (fun _ heq => hne (Option.some.inj heq)) (hproc ▸ hq)
  refine ⟨(hlocals.trans hlocals').trans (sameLocals_finishProcedure u outer _ entry q), ?_⟩
  rw [procedure?_finishProcedure, if_neg hne, hproc', hproc]

/-- The new procedure has as many locals as were counted. -/
theorem Advanced.filled
    (ht : InFrame false W (bodyUnit f s body) (s.openProcedure f p message))
    (hparams : ParamsAt W (s.nextProcedure f.scope) s.blocks.size 0 p.args u) (entry : Option Nat)
    {q : Procedure} (hq : u.procedure? (s.nextProcedure f.scope) = some q) :
    Filled W u (s.nextProcedure f.scope) { q with entry, locals := u.counters.locals } := by
  obtain ⟨hpacked, hknown⟩ := hu.inFrame.current rfl _ rfl
  obtain ⟨y, hy⟩ := Option.isSome_iff_exists.mp (ht.registered rfl)
  obtain ⟨z, hz, hargs⟩ := hu.grows.procedures _ y hy
  cases hz.symm.trans hq
  have hargs' : q.args = p.args := hargs.trans (procedure?_openProcedure_next hy).1
  refine ⟨hpacked, s.blocks.size, (hknown q hq).2, fun i arg harg => ?_⟩
  have harg' : p.args[i]? = some arg := hargs' ▸ harg
  have hparam := hparams i arg harg'
  rwa [Nat.zero_add] at hparam

/-- A procedure that was lowered to the end is filled, and those around it are as they were before. -/
theorem InFrame.closeProcedure (h : InFrame false W f s)
    (ht : InFrame false W (bodyUnit f s body) (s.openProcedure f p message))
    (hparams : ParamsAt W (s.nextProcedure f.scope) s.blocks.size 0 p.args u) (entry : Option Nat) :
    Advanced false W f s
      (finishProcedure u s.counters.locals (s.nextProcedure f.scope) entry) := by
  let v := finishProcedure u s.counters.locals (s.nextProcedure f.scope) entry
  have hopen := s.grows_openProcedure f p message
  have hgrows : s.Grows v := (hopen.trans hu.grows).trans (grows_finishProcedure u _ _ entry)
  have hsame (q : ProcRef) : SameLocals W q u v := sameLocals_finishProcedure u _ _ entry q
  refine ⟨⟨coherent_finishProcedure u _ _ entry hu.inFrame.coherent, h.placed.keeps hgrows.keeps, ?_,
    h.foretells.grows hgrows, fun q x hx hdone ⟨owner, howner⟩ => ?_, fun _ q hq => ?_⟩,
    fun q _ hq => hu.kept hq _ entry, hgrows⟩
  · exact (isWatching_modifyProcedure _ _ _).trans hu.inFrame.mode
  · rw [defined_finishProcedure] at howner
    rw [procedure?_finishProcedure] at hx
    split at hx
    · next heq =>
      subst heq
      obtain ⟨x', hx', rfl⟩ := Option.map_eq_some_iff.mp hx
      exact (hu.filled ht hparams entry hx').congr (hsame _)
    · exact (hu.inFrame.done q x hx hdone ⟨owner, howner⟩).congr (hsame q)
  · -- The count of locals is the one of the procedure outside again.
    obtain ⟨hpacked, hknown⟩ := h.current rfl q hq
    obtain ⟨hlocals, hproc⟩ := hu.kept (h.registered hq) s.counters.locals entry
    have hcount : v.counters.locals = s.counters.locals := by
      change (modifyProcedure _ _ _).counters.locals = _
      rw [counters_modifyProcedure]
      rfl
    rw [hcount, hproc]
    exact ⟨hpacked.congr hlocals, hknown⟩

end Close

/-! ## Classes -/

theorem procedure?_appendClass {c : Class} {classes : ClassTable} (hc : c.procedures = {})
    (h : s.classes.append? c = some classes) :
    ({ s with classes } : Session).procedure? = s.procedure? := by
  funext ⟨owner, i⟩
  cases owner with
  | none => rfl
  | some cls =>
    rw [procedure?_some, procedure?_some, ClassTable.get?_append? h]
    split
    · next hcls =>
      rw [hcls, ClassTable.get?_size, Option.bind_some, hc]
      rfl
    · rfl

theorem InFrame.inClass (h : InFrame w W f s) (hproc : f.scope.procedure = none) (cls : Nat) :
    InFrame w W { f with scope := .inClass cls } s := by
  obtain ⟨hd, hs, hhd⟩ := h.placed.block
  refine ⟨h.coherent, ⟨⟨hd, hs, hhd.trans hproc⟩, fun id hid => by cases hid⟩, h.mode, h.foretells,
    h.done, fun _ r hr => by cases hr⟩

theorem Advanced.outOfClass {cls : Nat} (hplaced : f.Placed s) (hproc : f.scope.procedure = none)
    (h : Advanced w W { f with scope := .inClass cls } s t) : Advanced w W f s t := by
  refine ⟨⟨h.inFrame.coherent, hplaced.keeps h.grows.keeps, h.inFrame.mode, h.inFrame.foretells,
    h.inFrame.done, fun _ r hr => ?_⟩, fun r _ hr => ?_, h.grows⟩
  · rw [hproc] at hr
    cases hr
  · exact h.apart r (fun _ => nofun) hr

/-! ## Runs -/

/-- The run went on in the frame or, if it halted, left the procedures filled that were complete. -/
def Holds {α : Type} (w : Bool) (W : SymbolRef → Prop) (f : Frame) (s : Session) :
    EStateM.Result Stop State α → Prop
  | .ok _ t => Advanced w W f s t.session
  | .error (.halt _) t => t.session.AllFilled W
  | .error (.defect _) _ => True

variable {α β : Type}

theorem Holds.bind {s : State} {m : Lower α} {k : α → Lower β} (hm : Holds w W f s.session (m f s))
    (hk : ∀ a t, m f s = .ok a t → InFrame w W f t.session → Holds w W f t.session (k a f t)) :
    Holds w W f s.session ((m >>= k) f s) := by
  rw [run_bind]
  revert hm hk
  rcases m f s with ⟨a, t⟩ | ⟨_ | _, t⟩
  · intro hm hk
    have h := hk a t rfl hm.inFrame
    dsimp only
    revert h
    rcases k a f t with ⟨b, u⟩ | ⟨_ | _, u⟩
    · exact fun h => hm.trans h
    · exact id
    · exact id
  · exact fun hm _ => hm
  · exact fun hm _ => hm

theorem holds_lowerInner {s : State} (h : InFrame w W f s.session) {dialect : Dialect}
    {body : List Node}
    (hcode : (s.session.block? f.block).isSome →
      Holds w W (unitFrame s.session.blocks.size f.scope dialect body) (s.session.openBlock f dialect)
        (lowerCode body (unitFrame s.session.blocks.size f.scope dialect body)
          { session := s.session.openBlock f dialect })) :
    Holds w W f s.session (lowerInner dialect body f s) := by
  cases hb : s.session.block? f.block with
  | none =>
    rw [lowerInner_error dialect body hb]
    trivial
  | some b =>
    have hsome : (s.session.block? f.block).isSome := by rw [hb]; rfl
    have hinner := hcode hsome
    rw [lowerInner_run dialect body hsome]
    revert hinner
    rcases lowerCode body _ _ with ⟨_, t⟩ | ⟨_ | _, t⟩
    · exact fun ht => h.closeBlock ht
    · exact id
    · exact id

theorem holds_lowerBody {s : State} (h : InFrame false W f s.session) {fn : Function} {p : Procedure}
    (hentry : p.entry = none)
    (hcode : (s.session.block? f.block).isSome →
      (∀ cls, ownerClass f.scope = some cls → (s.session.classes.get? cls).isSome) →
      ∀ t, declareParams p.args (bodyUnit f s.session fn.body)
          { session := s.session.openProcedure f p (bodyMessage fn.name s.session.blocks.size) } =
          .ok () t →
        InFrame false W (bodyUnit f s.session fn.body) t.session →
        Holds false W (bodyUnit f s.session fn.body) t.session
          (lowerCode fn.body (bodyUnit f s.session fn.body) t)) :
    Holds false W f s.session (lowerBody statement fn p f s) := by
  rcases lowerBody_cases fn p f s with ⟨hblock, hcls, hrun⟩ | ⟨_, d, t, hrun, _⟩
  case inr =>
    rw [hrun]
    trivial
  rw [hrun, run_bind]
  clear hrun
  have hopened := h.openProcedure hentry hblock hcls (bodyMessage fn.name s.session.blocks.size) fn.body
  have hnext : ((s.session.openProcedure f p (bodyMessage fn.name s.session.blocks.size)).next
      (.block s.session.blocks.size)).index = 0 := by
    have hnew := s.session.header?_openProcedure f p (bodyMessage fn.name s.session.blocks.size)
      s.session.blocks.size
    rw [if_pos rfl] at hnew
    rw [next_block hnew]
    rfl
  cases hparams : declareParams p.args (bodyUnit f s.session fn.body)
      { session := s.session.openProcedure f p (bodyMessage fn.name s.session.blocks.size) } with
  | error e t =>
    obtain ⟨d, rfl⟩ := declareParams_error hparams
    trivial
  | ok a t =>
    obtain ⟨hdeclared, hplaces⟩ := run_declareParams hopened rfl hnext hparams
    have hinner := hcode hblock hcls t hparams hdeclared.inFrame
    dsimp only
    revert hinner
    rcases lowerCode fn.body _ t with ⟨_, u⟩ | ⟨_ | _, u⟩
    · intro hu
      simp only [run_bind, run_getBlock, run_modifySession]
      cases Session.block? _ s.session.blocks.size with
      | none => trivial
      | some b => exact h.closeProcedure (hdeclared.trans hu) hopened (hplaces.grows hu.grows) b.entry
    · exact fun hu => AllFilled.congr hu rfl rfl rfl
    · exact id

/-- Along every course the locals of a procedure take the places of its frame one after the other. -/
theorem Course.holds {D : Prop} {P : Instruction → Prop} {f : Frame} {s : State} {m : Lower α}
    (h : Course D P f s m) (hwatch : w = true → ¬ ∀ i, P i) (hs : InFrame w W f s.session) :
    Holds w W f s.session (m f s) := by
  induction h with
  | pure a => exact .refl hs
  | bind _ _ ihm ihk => exact .bind (ihm hs) fun a t hrun ht => ihk a t hrun ht
  | read => exact .refl hs
  | get => exact .refl hs
  | @modify f s g hg _ =>
    change Advanced w W f s.session (g s).session
    rw [hg]
    exact .refl hs
  | defect d _ => trivial
  | @withReader α f s g m hg _ ih =>
    have hm := ih (hs.site hg)
    change Holds w W f s.session (m (g f) s)
    revert hm
    rcases m (g f) s with ⟨_, t⟩ | ⟨_ | _, t⟩
    · exact fun hm => hm.site hg.symm
    · exact id
    · exact id
  | note level topic message => exact hs.change (K := fun _ => True) (.note ..)
  | report message span _ => exact hs.change (K := fun _ => True) (.report ..)
  | halt message span _ => exact (hs.change (K := fun _ => True) (.report ..)).inFrame.done
  | @emitWith f s i span debug _ =>
    by_cases hcan : s.session.CanEmit f.block
    · rw [run_emitWith i span debug f s hcan]
      exact hs.emit hcan _ span _
    · rw [run_emitWith_error i span debug f s hcan]
      trivial
  | @patch f s pending target _ _ =>
    rcases patch_cases pending target f s with ⟨i, j, hi, hj, hrun⟩ | ⟨d, hrun⟩
    · rw [hrun]
      exact hs.change (K := fun _ => True) (.patch hi hj trivial)
    · rw [hrun]
      trivial
  | @allocate f s d =>
    rcases allocate_cases d f s with ⟨hcan, a, hrun⟩ | ⟨e, t, hrun⟩
    · rw [hrun]
      exact hs.declare (K := fun _ => True) (.declare d hcan)
    · rw [hrun]
      trivial
  | record hq => exact hs.change (K := fun _ => True) hq.change
  | block dialect body _ _ ih =>
    exact holds_lowerInner hs fun hblock => ih hblock (hs.openBlock dialect body)
  | procedure fn p hP hentry _ ih =>
    obtain rfl : w = false := Bool.eq_false_iff.mpr fun hw => hwatch hw hP
    exact holds_lowerBody hs hentry fun hblock hcls t hrun ht => ih hblock hcls t hrun ht
  | @addClass f s c classes _ _ hsymbols hprocs _ happ =>
    refine hs.same (hs.coherent.appendClass ?_ happ) (grows_appendClass happ)
      (symbol?_appendClass hsymbols happ) rfl (procedure?_appendClass hprocs happ) rfl rfl
    rw [hsymbols]
    exact SymbolTable.numbered_empty
  | @inClass α f s m cls _ hproc _ _ ih =>
    have hm := ih (hs.inClass hproc cls)
    change Holds w W f s.session (m { f with scope := .inClass cls } s)
    revert hm
    rcases m { f with scope := .inClass cls } s with ⟨_, t⟩ | ⟨_ | _, t⟩
    · exact fun hm => hm.outOfClass hs.placed hproc
    · exact id
    · exact id

end Diglot.Lowering
