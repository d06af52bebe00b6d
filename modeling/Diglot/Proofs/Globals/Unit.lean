import Diglot.Proofs.Course.Unit
import Diglot.Proofs.Globals.First
import Diglot.Proofs.Globals.Inherited
import Diglot.Proofs.Spare.Update

/-! # A unit that does not declare a name

A further unit that does not declare a name at its top level inherits it until the end: what it assigns is
found, and what it declares there has another name. The walk goes over the statements at the top level,
the bodies of conditionals and loops included, which have no block of their own.
-/

set_option autoImplicit false

namespace Diglot.Lowering

variable {α β : Type} {own : Nat} {name : String} {f : Frame}

/-! ## Steps that maintain a condition -/

/-- A run that starts where `I` holds of the session ends where it holds, unless in a defect. -/
def Maintains (I : Session → Prop) (f : Frame) (m : Lower α) : Prop :=
  ∀ s, I s.session →
    match m f s with
    | .ok _ t => I t.session
    | .error (.halt _) t => I t.session
    | .error (.defect _) _ => True

namespace Maintains

variable {I : Session → Prop}

theorem ofSpares {m : Lower α} (h : Spares I f m) : Maintains I f m := by
  intro s hs
  have hend := (h s hs).1
  revert hend
  cases m f s with
  | ok a t => exact id
  | error e t =>
    cases e with
    | halt d => exact id
    | defect d => exact fun _ => trivial

theorem bind {m : Lower α} {k : α → Lower β} (hm : Maintains I f m) (hk : ∀ a, Maintains I f (k a)) :
    Maintains I f (m >>= k) := by
  intro s hs
  have hfirst := hm s hs
  rw [run_bind]
  revert hfirst
  cases m f s with
  | ok a t => exact fun ht => hk a t ht
  | error e t =>
    cases e with
    | halt d => exact id
    | defect d => exact id

theorem pure (a : α) : Maintains I f (Pure.pure a : Lower α) := fun _ hs => hs

theorem ite {c : Prop} [Decidable c] {m n : Lower α} (hm : Maintains I f m) (hn : Maintains I f n) :
    Maintains I f (if c then m else n) := by
  split
  · exact hm
  · exact hn

theorem forM {l : List β} {k : β → Lower Unit} (h : ∀ a ∈ l, Maintains I f (k a)) :
    Maintains I f (l.forM k) := by
  induction l with
  | nil => exact pure ()
  | cons a rest ih =>
    apply bind (h a (List.mem_cons_self ..))
    exact fun _ => ih fun b hb => h b (List.mem_cons_of_mem a hb)

theorem withReader {g : Frame → Frame} {m : Lower α} (h : Maintains I (g f) m) :
    Maintains I f (MonadWithReader.withReader g m : Lower α) := h

/-- What is lowered in another frame evolves the session from there. -/
theorem ofSettled {g : Frame} {K : OpCode → Prop} {m : Lower α} (h : ∀ s, Settled K g s (m f s))
    (hI : ∀ s t, I s → Evolves K g.site s t → I t) : Maintains I f m := by
  intro s hs
  have hrun := h s
  revert hrun
  cases m f s with
  | ok a t => exact hI s.session t.session hs
  | error e t =>
    cases e with
    | halt d => exact hI s.session t.session hs
    | defect d => exact id

end Maintains

/-! ## The top level -/

/-- The code of an expression declares nothing. -/
theorem endures_inherits {block : Nat} : Endures (Session.Inherits own name) 0 block where
  log _ _ h := h.headers rfl rfl rfl
  diagnostics _ _ h := h.headers rfl rfl rfl
  emit s i span _ h := h.sameNames (s.sameNames_emit block i span)
  lateVariable _ _ h := h.headers rfl rfl rfl
  lateMember _ _ _ _ h := h.headers rfl rfl rfl
  lateFunction _ _ h := h.headers rfl rfl rfl
  known _ _ := Nat.zero_le _

theorem allocate_inherits (hscope : f.scope = .global) {d : Declaration} (hfree : d.name ≠ name) :
    Spares (Session.Inherits own name) f (allocate d) := by
  refine .withFrame (.withSession fun s hs => .andThen (.modifySession fun t ht => ?_) fun _ => ?_)
  · exact ht.headers rfl rfl rfl
  · have hbucket : bucketOf s.isWatching f.scope d.isStatic = .global := by
      rw [hs.isWatching, hscope]
      rfl
    rw [hbucket]
    refine .withFrame (.andThen (.getBlock _) fun b => .andThen (.modifySession fun t ht => ?_) fun _ => ?_)
    · exact ht.enterLocal hfree f.block
    · exact .pure trivial

/-- At the top level of a further unit only the inherited name must not be declared. -/
theorem hosts_inherits (hblock : f.block = own) (hscope : f.scope = .global) :
    Hosts (Session.Inherits own name) 0 (· ≠ name) f where
  endures := endures_inherits
  isWatching _ h := h.isWatching
  temporaries _ _ h := h.headers rfl rfl rfl
  uid _ _ h := h.headers rfl rfl rfl
  code s k hk _ h := h.sameNames (Session.sameNames_modifyBlock (fun b => (hk b).1) s f.block)
  unseen h s v other hsite hs hv hnot heq := by
    have hb : h.block = own := (congrArg Frame.block hsite).trans hblock
    have hg : h.scope = .global := (congrArg Frame.scope hsite).trans hscope
    obtain ⟨r, hr⟩ := hs.resolve hb hg hv
    rw [heq] at hnot
    exact hnot r hr
  allocate h _ hsite _ hfree := by
    have hg : h.scope = .global := (congrArg Frame.scope hsite).trans hscope
    exact allocate_inherits hg hfree

/-! ## Bodies in blocks of their own -/

namespace Maintains

section
variable {statement : LowerStatement} (hev : ∀ n, Evolving (fun _ => True) (statement n))
  (hown : own ≠ 0)
include hev hown

/-- Code in another block declares nothing in the block of the unit. -/
theorem lowerUnit {block : Nat} (hne : block ≠ own) (scope : Scope) (dialect : Dialect)
    (unit : List Node) (params : List Argument) :
    Maintains (Session.Inherits own name) f (lowerUnit statement block scope dialect unit params) := by
  apply ofSettled (g := { block, scope, dialect })
  · exact fun s => lowerUnit_settled hev block scope dialect unit params f s
  · exact fun s t hs he => hs.evolves hown (.inl hne) he

theorem lowerBlock (hblock : f.block = own) (dialect : Dialect) (body : List Node) (span : Span) :
    Maintains (Session.Inherits own name) f (lowerBlock statement dialect body span) := by
  intro s hs
  have hlt := hs.lt_size
  have hsome : (s.session.block? f.block).isSome := by
    rw [hblock, Session.block?, Array.getElem?_eq_getElem hlt]
    rfl
  have hne : s.session.blocks.size ≠ own := Nat.ne_of_gt hlt
  have hopen : Session.Inherits own name (s.session.openBlock f dialect) :=
    hs.addBlock rfl (Session.header?_openBlock s.session f dialect) rfl rfl
  have hrest : Maintains (Session.Inherits own name) f (do
      Lowering.lowerUnit statement s.session.blocks.size f.scope dialect body []
      let entry := (← Lowering.getBlock s.session.blocks.size).entry.getD 0
      let _ ← Lowering.emitBounce s.session.blocks.size entry span) := by
    apply bind (lowerUnit hev hown hne _ _ _ _)
    intro _
    have hI : Endures (Session.Inherits own name) 0 f.block := endures_inherits
    refine ofSpares (.andThen (.getBlock _) fun b => .andThen (.emit hI rfl _) fun _ => ?_)
    exact .pure trivial
  rw [lowerBlock_run statement dialect body span hsome]
  exact hrest { s with session := s.session.openBlock f dialect } hopen

theorem lowerBody (hblock : f.block = own) (fn : Function) (p : Procedure) :
    Maintains (Session.Inherits own name) f (lowerBody statement fn p) := by
  intro s hs
  obtain ⟨hcls, hr⟩ | ⟨d, hr⟩ := registerProcedure_cases p f s
  · have hlt := hs.lt_size
    have hsome : (s.session.block? f.block).isSome := by
      rw [hblock, Session.block?, Array.getElem?_eq_getElem hlt]
      rfl
    have hne : s.session.blocks.size ≠ own := Nat.ne_of_gt hlt
    have ho : Opens f s.session (bodyFrame f s.session)
        (s.session.openProcedure f p (bodyMessage fn.name s.session.blocks.size)) _ :=
      .procedure p _ hsome hcls
    have hopen : Session.Inherits own name
        (s.session.openProcedure f p (bodyMessage fn.name s.session.blocks.size)) := by
      apply hs.addBlock rfl (Session.header?_openProcedure s.session f p _) ho.isWatching_eq
      rw [invariant_isParsingModule.opens hs.isParsingModule ho, hs.isParsingModule]
    have hunit := lowerUnit hev hown (f := f) hne (bodyFrame f s.session).scope f.dialect fn.body p.args
      { s with session := s.session.openProcedure f p (bodyMessage fn.name s.session.blocks.size) } hopen
    rw [lowerBody_run statement fn p hsome hr]
    revert hunit
    generalize Lowering.lowerUnit _ _ _ _ _ _ _ _ = r
    cases r with
    | ok _ t =>
      intro ht
      have hclose : Maintains (Session.Inherits own name) f (do
          let entry := (← Lowering.getBlock s.session.blocks.size).entry
          Lowering.modifySession fun u =>
            u.modifyProcedure (s.session.nextProcedure f.scope) fun p =>
              { p with entry, locals := t.session.counters.locals }) := by
        refine ofSpares (.andThen (.getBlock _) fun b => .modifySession fun u hu => ?_)
        apply hu.headers (Session.header?_modifyProcedure _ _ _)
        · exact Session.isWatching_modifyProcedure _ _ _
        · unfold Session.modifyProcedure
          split <;> rfl
      apply hclose
      exact Session.Inherits.headers ht rfl rfl rfl
    | error e t =>
      cases e with
      | halt d => exact fun ht => Session.Inherits.headers ht rfl rfl rfl
      | defect d => exact id
  · have hrun : Lowering.lowerBody statement fn p f s = .error (.defect d) s := by
      simp [Lowering.lowerBody, hr]
    rw [hrun]
    trivial

/-- A class of the unit declares its members in tables of its own. -/
theorem lowerClass (c : ClassDecl) :
    Maintains (Session.Inherits own name) f (lowerClass statement c) := by
  have hI : Endures (Session.Inherits own name) 0 f.block := endures_inherits
  apply bind (ofSpares (.resolveBase hI c))
  intro base
  apply bind (ofSpares (.lowerAttributes hI c.attributes))
  intro attributes s hs
  simp only [run_bind, run_getSession]
  cases happ : s.session.classes.append? { name := c.name, base, attributes } with
  | none =>
    have hhalt : Maintains (Session.Inherits own name) f (Lowering.halt .duplicateClass
        ("Class '" ++ c.name ++ "' is already declared.") c.span : Lower Unit) := ofSpares (.halt hI _ _ _)
    exact hhalt s hs
  | some classes =>
    have hbody : Maintains (Session.Inherits own name) f (do
        Lowering.note .debug .code
          ("class '" ++ c.name ++ "' is #" ++ toString s.session.classes.size)
        MonadWithReader.withReader (fun f : Frame => { f with scope := .inClass s.session.classes.size })
          (Lowering.lowerClassBody statement c)) := by
      apply bind (ofSpares (.note hI _ _ _))
      intro _
      apply withReader
      apply ofSettled (g := { f with scope := .inClass s.session.classes.size })
      · exact fun t => Evolving.free.lowerClassBody (Evolving.lowerFunction hev) c _ t
      · exact fun t u ht he => ht.evolves hown (.inr ⟨rfl, rfl⟩) he
    exact hbody { s with session := { s.session with classes } } (hs.headers rfl rfl rfl)

theorem lowerFunction (hblock : f.block = own) (fn : Function) (isGenerated : Bool) :
    Maintains (Session.Inherits own name) f (lowerFunction statement fn isGenerated) := by
  have hI : Endures (Session.Inherits own name) 0 f.block := endures_inherits
  rw [lowerFunction_eq]
  refine bind (ofSpares (.resolveType hI _ _)) fun returns => ?_
  refine bind (ofSpares (.resolveParams hI _)) fun args => ?_
  exact bind (ofSpares (.lowerAttributes hI _)) fun attributes => lowerBody hev hown hblock fn _

theorem lowerTopLevelClass (c : ClassDecl) :
    Maintains (Session.Inherits own name) f (lowerTopLevelClass statement c) := by
  have hmay : Spares (Session.Inherits own name) f mayDeclareClass :=
    .withFrame (.andThen (.getBlock _) fun _ => .pure trivial)
  apply bind (ofSpares hmay)
  intro may
  apply ite (lowerClass hev hown c)
  exact ofSpares (.halt endures_inherits _ _ _)

end

end Maintains

/-! ## Statements -/

/-- The statement does not declare the name at the top level of the unit. -/
def Avoids (own : Nat) (name : String) (statement : LowerStatement) (n : Node) : Prop :=
  ∀ f : Frame, f.block = own → f.scope = .global → name ∉ n.namesOf Node.declaredName? →
    Maintains (Session.Inherits own name) f (statement n)

namespace Maintains

section
variable {statement : LowerStatement} (hev : ∀ n, Evolving (fun _ => True) (statement n))
  (hown : own ≠ 0) (h : ∀ n, Avoids own name statement n) (hblock : f.block = own)
  (hscope : f.scope = .global)
include h hblock hscope

theorem lowerAll {l : List Node} (hname : name ∉ Node.allNames Node.declaredName? l) :
    Maintains (Session.Inherits own name) f (lowerAll statement l) := by
  induction l with
  | nil => exact pure _
  | cons n rest ih =>
    have hboth : name ∉ n.namesOf Node.declaredName? ++ Node.allNames Node.declaredName? rest := hname
    rw [List.mem_append, not_or] at hboth
    exact bind (h n f hblock hscope hboth.1) fun _ => bind (ih hboth.2) fun _ => pure _

/-- The initial value of a variable is assigned to it. -/
theorem lowerVariable (v : Variable) (hname : v.name ≠ name) :
    Maintains (Session.Inherits own name) f (lowerVariable statement v) := by
  have hI : Endures (Session.Inherits own name) 0 f.block := endures_inherits
  have hany (s : Session) (i : Instruction) (span : Span) (hs : s.Inherits own name) :
      (s.emit f.block i span).Inherits own name := hs.sameNames (s.sameNames_emit f.block i span)
  refine bind (ofSpares (.resolveType hI _ _)) fun type => ?_
  refine bind (ofSpares (allocate_inherits hscope (d := .ofVariable v type) hname)) fun r => ?_
  refine bind (ofSpares (.getSymbol r)) fun symbol => bind (ofSpares (.emitHeapBox hI hany symbol)) fun _ => ?_
  unfold initializer?
  cases v.value with
  | none => exact pure _
  | some value => exact bind (h _ f hblock hscope List.not_mem_nil) fun _ => pure _

include hev hown

theorem associativeStatement (n : Node) (hname : name ∉ n.namesOf Node.declaredName?) :
    Maintains (Session.Inherits own name) f (associativeStatement statement n) := by
  have hhosts : Hosts (Session.Inherits own name) 0 (· ≠ name) f := hosts_inherits hblock hscope
  have hcontrol (span : Span) : Maintains (Session.Inherits own name) f (haltOnControl (α := Unit) span) :=
    ofSpares (.halt hhosts.endures _ _ _)
  unfold Lowering.associativeStatement
  cases n with
  | assign => exact ofSpares (.lowerUpdate hhosts _ _ _)
  | ret => exact ofSpares (.lowerReturn hhosts.toCarries _ _)
  | varDecl v =>
    apply lowerVariable h hblock hscope v
    intro heq
    exact hname (Option.mem_toList.mpr (congrArg some heq))
  | function fn => exact lowerFunction hev hown hblock fn false
  | classDecl c => exact lowerTopLevelClass hev hown c
  | block => exact lowerBlock hev hown hblock _ _ _
  | branch => exact hcontrol _
  | loop => exact hcontrol _
  | breakLoop => exact hcontrol _
  | continueLoop => exact hcontrol _
  | _ => exact ofSpares (.lowerUnnamed hhosts _)

theorem imperativeStatement (n : Node) (hname : name ∉ n.namesOf Node.declaredName?) :
    Maintains (Session.Inherits own name) f (imperativeStatement statement n) := by
  have hhosts : Hosts (Session.Inherits own name) 0 (· ≠ name) f := hosts_inherits hblock hscope
  have hI := hhosts.endures
  have hplain {m : Lower Unit} (hm : Maintains (Session.Inherits own name) f m) :
      Maintains (Session.Inherits own name) f (plain m) := bind hm fun _ => pure _
  have hjump {i : Instruction} (hi : i.opcode.isAlloc = false) (span : Span) (steps : List (Option Nat)) :
      Maintains (Session.Inherits own name) f (emitStepping i span steps) :=
    ofSpares (.emitStepping hI hi _ _)
  have hpatch (pending target : Nat) : Maintains (Session.Inherits own name) f (patch pending target) :=
    ofSpares (.patch hhosts.toCarries _ _)
  have hpc : Maintains (Session.Inherits own name) f pc := ofSpares .pc
  unfold Lowering.imperativeStatement
  cases n with
  | assign => exact hplain (ofSpares (.lowerAssignment hhosts _ _))
  | ret => exact hplain (ofSpares (.returnStatement hI _ _))
  | branch condition body otherwise span =>
    have hboth : name ∉ Node.allNames Node.declaredName? body ++ Node.allNames Node.declaredName? otherwise :=
      hname
    rw [List.mem_append, not_or] at hboth
    apply bind (ofSpares (.lowerCondition hI condition span))
    intro _
    apply ite
    · refine bind (hjump rfl _ _) fun _ => bind (lowerAll h hblock hscope hboth.1) fun _ => ?_
      exact bind hpc fun _ => bind (hpatch _ _) fun _ => pure _
    · refine bind hpc fun _ => bind (ofSpares (.emitCjmp hI _ _ _)) fun _ => ?_
      refine bind (lowerAll h hblock hscope hboth.1) fun _ => bind (hjump rfl _ _) fun _ => ?_
      refine bind hpc fun _ => bind (hpatch _ _) fun _ => ?_
      refine bind (lowerAll h hblock hscope hboth.2) fun _ => ?_
      exact bind hpc fun _ => bind (hpatch _ _) fun _ => pure _
  | loop condition body span =>
    apply hplain
    refine bind hpc fun _ => bind (ofSpares (.lowerCondition hI _ _)) fun _ => bind hpc fun _ => ?_
    refine bind (ofSpares (.emitCjmp hI _ _ _)) fun _ => bind ?_ fun exits => ?_
    · apply withReader
      exact lowerAll (f := { f with inLoop := true }) h hblock hscope hname
    · refine bind (forM fun p _ => hpatch p _) fun _ => bind (hjump rfl _ _) fun _ => ?_
      exact bind hpc fun _ => bind (hpatch _ _) fun _ => forM fun p _ => hpatch p _
  | breakLoop => exact ofSpares (.lowerExit hI _ _ _)
  | continueLoop => exact ofSpares (.lowerExit hI _ _ _)
  | varDecl v =>
    apply hplain
    apply lowerVariable h hblock hscope v
    intro heq
    exact hname (Option.mem_toList.mpr (congrArg some heq))
  | block => exact hplain (lowerBlock hev hown hblock _ _ _)
  | function fn => exact hplain (lowerFunction hev hown hblock fn false)
  | classDecl => exact ofSpares (.halt hI _ _ _)
  | _ => exact hplain (ofSpares (.lowerDiscarded hI _))

end

theorem statementWithin (hown : own ≠ 0) (depth : Nat) (n : Node) :
    Avoids own name (statementWithin depth) n := by
  induction depth generalizing n with
  | zero => exact fun f _ _ _ => ofSpares (.defect _)
  | succ depth ih =>
    intro f hblock hscope hname
    have hev := Evolving.statementWithin depth
    apply bind (ofSpares (.withFrame (k := Pure.pure) (.pure trivial)))
    intro g
    split
    · exact bind (associativeStatement hev hown ih hblock hscope n hname) fun _ => pure _
    · exact imperativeStatement hev hown ih hblock hscope n hname

theorem lowerCode (hown : own ≠ 0) (hblock : f.block = own) (hscope : f.scope = .global)
    {unit : List Node} (hname : name ∉ Node.allNames Node.declaredName? unit) :
    Maintains (Session.Inherits own name) f (lowerCode unit) := by
  have h (n : Node) : Avoids own name statement n := statementWithin hown _ n
  apply bind (lowerAll h hblock hscope hname)
  exact fun _ => ofSpares (.closeUnit (hosts_inherits hblock hscope).endures unit)

end Maintains

end Diglot.Lowering
