import Diglot.Proofs.Spare.Update
import Diglot.Proofs.Evolution.Statement

/-! # Whole statements spare what is there

A statement declares variables and members, opens blocks, procedures and classes, and lowers the statements
inside. `Lodges` lists what has to survive of this; then it survives every statement
(`Lodges.statement`).

`A` tells the frames that code is lowered in, and `L` those of statements; the other ones are those of
classes. `B` tells the blocks and `N` the procedures that are opened on the way. A box is made where a
variable is declared, and not where a member is.
-/

set_option autoImplicit false

namespace Diglot.Lowering

variable {α : Type} {f : Frame}

/-- Declares a variable and makes its box. -/
def declareBoxed (d : Declaration) : Lower Unit := do
  let symbol ← getSymbol (← allocate d)
  emitHeapBox symbol

theorem lowerVariable_eq (statement : LowerStatement) (v : Variable) :
    lowerVariable statement v = (do
      let type ← resolveType v.type v.span
      declareBoxed (.ofVariable v type)
      match initializer? v with
      | some assignment => let _ ← statement assignment
      | none => return) := by
  unfold lowerVariable declareBoxed
  refine bind_congr fun type => Eq.symm ?_
  exact (bind_assoc _ _ _).trans (bind_congr fun r => bind_assoc _ _ _)

/-- `I` survives what statements do. -/
structure Lodges (I : Session → Prop) (known : Nat) (A L : Frame → Prop) (B : Nat → Prop) (N : ProcRef → Prop) :
    Prop where
  frame {f : Frame} : L f → A f
  hosts {f : Frame} : A f → Hosts I known (fun _ => True) f
  site {f g : Frame} : L f → g.site = f.site → L g
  declareBoxed {f : Frame} (d : Declaration) : L f → Spares I f (declareBoxed d)
  member {f : Frame} {cls : Nat} (d : Declaration) : A f → f.scope = .inClass cls → Spares I f (allocate d)
  addBlock {f : Frame} (kind : BlockKind) (dialect : Dialect) : A f →
    Sparing I f (addBlock kind dialect f.block) B
  owner {s : Session} {id : Nat} (r : Option ProcRef) : B id → I s →
    I (s.modifyBlock id fun b => { b with procedure := r })
  within {f : Frame} {id : Nat} (dialect : Dialect) : L f → B id → L { block := id, scope := f.scope, dialect }
  registerProcedure {f : Frame} (p : Procedure) : A f → Sparing I f (registerProcedure p) N
  modifyProcedure {s : Session} {r : ProcRef} (k : Procedure → Procedure) : N r → I s →
    I (s.modifyProcedure r k)
  setLocals {s : Session} (n : Nat) : I s → I (s.setLocals n)
  body {f : Frame} {id : Nat} {scope : Scope} (dialect : Dialect) : A f → B id → scope.procedure.isSome →
    L { block := id, scope, dialect }
  addClass {f : Frame} {s : Session} {c : Class} {classes : ClassTable} : A f → I s →
    s.classes.append? c = some classes → I { s with classes } ∧ A { f with scope := .inClass s.classes.size }

namespace Sparing

/-! ## Frames of their own -/

theorem nested {I : Session → Prop} {h : Frame} {m : Lower α} (hm : Spares I h m) :
    Spares I f (nested h m) := by
  intro s hs
  have hrun := (hm { session := s.session } hs).1
  refine ⟨?_, fun _ _ _ => trivial⟩
  rw [run_nested]
  cases hr : m h { session := s.session } <;> rw [hr] at hrun <;> exact hrun

theorem countingLocals {I : Session → Prop} (hset : ∀ s n, I s → I (s.setLocals n)) {m : Lower Unit}
    (hm : Spares I f m) : Spares I f (countingLocals m) := by
  intro s hs
  have hrun := (hm { s with session := s.session.setLocals 0 } (hset _ 0 hs)).1
  refine ⟨?_, fun _ _ _ => trivial⟩
  rw [run_countingLocals]
  cases hr : m f { s with session := s.session.setLocals 0 } <;> rw [hr] at hrun <;> exact hset _ _ hrun

theorem lowerAll {I : Session → Prop} {A : Frame → Prop} {statement : LowerStatement}
    (h : ∀ n f, A f → Spares I f (statement n)) (hf : A f) (l : List Node) :
    Spares I f (lowerAll statement l) := by
  induction l with
  | nil => exact pure trivial
  | cons n rest ih => exact andThen (h n f hf) fun _ => andThen ih fun _ => pure trivial

variable {I : Session → Prop} {known : Nat} {A L : Frame → Prop} {B : Nat → Prop} {N : ProcRef → Prop}

section
variable {statement : LowerStatement} (hI : Lodges I known A L B N)
  (h : ∀ n f, L f → Spares I f (statement n))
include hI h

/-! ## Declarations -/

theorem lowerUnit {block : Nat} {scope : Scope} {dialect : Dialect} {unit : List Node}
    (hu : L { block, scope, dialect }) (params : List Argument) :
    Spares I f (lowerUnit statement block scope dialect unit params) := by
  have hu : L (unitFrame block scope dialect unit) := hI.site hu rfl
  refine nested (andThen (forM fun p _ => ?_) fun _ => ?_)
  · exact andThen ((hI.hosts (hI.frame hu)).allocate _ _ rfl rfl trivial) fun _ => pure trivial
  · exact andThen (lowerAll h hu _) fun _ => closeUnit (hI.hosts (hI.frame hu)).endures _

theorem lowerBlock (hf : L f) (dialect : Dialect) (body : List Node) (span : Span) :
    Spares I f (lowerBlock statement dialect body span) := by
  refine withFrame (bind (hI.addBlock _ _ (hI.frame hf)) fun child hchild => ?_)
  refine andThen (andThen (getBlock _) fun _ => modifySession fun s hs => hI.owner _ hchild hs) fun _ => ?_
  refine andThen (lowerUnit hI h (hI.within dialect hf hchild) _) fun _ => andThen (getBlock _) fun _ => ?_
  exact andThen (emit (hI.hosts (hI.frame hf)).endures rfl _) fun _ => pure trivial

theorem lowerFunction (hf : A f) (fn : Function) (isGenerated : Bool) :
    Spares I f (lowerFunction statement fn isGenerated) := by
  have hends := (hI.hosts hf).endures
  refine andThen (resolveType hends _ _) fun returns => andThen (resolveParams hends _) fun args => ?_
  refine andThen (lowerAttributes hends _) fun attributes => ?_
  refine bind (hI.registerProcedure _ hf) fun r hr => withFrame ?_
  refine bind (hI.addBlock _ _ hf) fun body hbody => ?_
  refine andThen (andThen (getBlock _) fun _ => modifySession fun s hs => hI.owner _ hbody hs) fun _ => ?_
  have hprocedure (k : Procedure → Procedure) :
      Spares I f (Lowering.modifySession fun s => s.modifyProcedure r k) :=
    modifySession fun s hs => hI.modifyProcedure k hr hs
  refine andThen (hprocedure _) fun _ => andThen (note hends _ _ _) fun _ => ?_
  refine andThen (countingLocals (fun s n => hI.setLocals n) (lowerUnit hI h ?_ _)) fun locals => ?_
  · exact hI.body _ hf hbody rfl
  · exact andThen (getBlock _) fun _ => hprocedure _

theorem lowerVariable (hf : L f) (v : Variable) : Spares I f (lowerVariable statement v) := by
  rw [lowerVariable_eq]
  refine andThen (resolveType (hI.hosts (hI.frame hf)).endures _ _) fun type => ?_
  refine andThen (hI.declareBoxed _ hf) fun _ => ?_
  split
  · exact andThen (h _ f hf) fun _ => pure trivial
  · exact pure trivial

theorem lowerClassBody {cls : Nat} (hf : A f) (hscope : f.scope = .inClass cls) (c : ClassDecl) :
    Spares I f (lowerClassBody statement c) := by
  have hmembers (members : List Variable) : Spares I f (lowerMembers members) := by
    induction members with
    | nil => exact pure trivial
    | cons v rest ih =>
      refine andThen (resolveType (hI.hosts hf).endures _ _) fun _ => ?_
      exact andThen (hI.member _ hf hscope) fun _ => ih
  refine andThen (hmembers _) fun _ => andThen (forM fun v _ => ?_) fun _ => ?_
  · exact andThen (lowerFunction hI h hf _ _) fun _ => lowerFunction hI h hf _ _
  refine andThen (forM fun fn _ => lowerFunction hI h hf _ _) fun _ => ?_
  refine andThen (forM fun fn _ => lowerFunction hI h hf _ _) fun _ => ?_
  exact ite (lowerFunction hI h hf _ _) (pure trivial)

theorem lowerClass (hf : A f) (c : ClassDecl) : Spares I f (lowerClass statement c) := by
  have hends := (hI.hosts hf).endures
  refine andThen (resolveBase hends c) fun base => andThen (lowerAttributes hends _) fun attributes => ?_
  intro s hs
  simp only [run_bind, run_getSession]
  cases happ : s.session.classes.append? { name := c.name, base, attributes } with
  | none => exact halt hends _ _ _ s hs
  | some classes =>
    obtain ⟨hclasses, hscope⟩ := hI.addClass hf hs happ
    have hbody := lowerClassBody hI h hscope rfl c
    exact andThen (note hends _ _ _) (fun _ => withReader (g := fun f => { f with scope := _ }) hbody)
      { s with session := { s.session with classes } } hclasses

/-! ## Statements -/

theorem associativeStatement (hf : L f) (node : Node) : Spares I f (associativeStatement statement node) := by
  have hhosts := hI.hosts (hI.frame hf)
  have hcontrol (span : Span) : Spares I f (haltOnControl (α := Unit) span) := halt hhosts.endures _ _ _
  unfold Lowering.associativeStatement
  cases node with
  | assign => exact lowerUpdate hhosts _ _ _
  | ret => exact lowerReturn hhosts.toCarries _ _
  | varDecl v => exact lowerVariable hI h hf v
  | function fn => exact lowerFunction hI h (hI.frame hf) fn false
  | classDecl c =>
    have hmay : Spares I f mayDeclareClass := withFrame (andThen (getBlock _) fun _ => pure trivial)
    exact andThen hmay fun _ => ite (lowerClass hI h (hI.frame hf) c) (halt hhosts.endures _ _ _)
  | block => exact lowerBlock hI h hf _ _ _
  | branch => exact hcontrol _
  | loop => exact hcontrol _
  | breakLoop => exact hcontrol _
  | continueLoop => exact hcontrol _
  | _ => exact lowerUnnamed hhosts _

theorem lowerIf (hf : L f) (body : List Node) (span : Span) : Spares I f (lowerIf statement body span) := by
  have hhosts := hI.hosts (hI.frame hf)
  refine andThen (emitStepping hhosts.endures rfl _ _) fun _ => andThen (lowerAll h hf _) fun _ => ?_
  exact andThen pc fun _ => andThen (patch hhosts.toCarries _ _) fun _ => pure trivial

theorem lowerIfElse (hf : L f) (body otherwise : List Node) (span : Span) :
    Spares I f (lowerIfElse statement body otherwise span) := by
  have hhosts := hI.hosts (hI.frame hf)
  refine andThen pc fun _ => andThen (emitCjmp hhosts.endures _ _ _) fun _ => andThen (lowerAll h hf _) fun _ => ?_
  refine andThen (emitStepping hhosts.endures rfl _ _) fun _ => andThen pc fun _ => ?_
  refine andThen (patch hhosts.toCarries _ _) fun _ => andThen (lowerAll h hf _) fun _ => andThen pc fun _ => ?_
  exact andThen (patch hhosts.toCarries _ _) fun _ => pure trivial

theorem lowerWhile (hf : L f) (condition : Node) (body : List Node) (span : Span) :
    Spares I f (lowerWhile statement condition body span) := by
  have hhosts := hI.hosts (hI.frame hf)
  have hloop : L { f with inLoop := true } := hI.site hf rfl
  refine andThen pc fun _ => andThen (lowerCondition hhosts.endures _ _) fun _ => andThen pc fun _ => ?_
  refine andThen (emitCjmp hhosts.endures _ _ _) fun _ => andThen (withReader (lowerAll h hloop _)) fun _ => ?_
  refine andThen (forM fun p _ => patch hhosts.toCarries _ _) fun _ => ?_
  refine andThen (emitStepping hhosts.endures rfl _ _) fun _ => andThen pc fun _ => ?_
  exact andThen (patch hhosts.toCarries _ _) fun _ => forM fun p _ => patch hhosts.toCarries _ _

theorem imperativeStatement (hf : L f) (node : Node) : Spares I f (imperativeStatement statement node) := by
  have hhosts := hI.hosts (hI.frame hf)
  have hends := hhosts.endures
  have hplain {m : Lower Unit} (hm : Spares I f m) : Spares I f (plain m) := andThen hm fun _ => pure trivial
  unfold Lowering.imperativeStatement
  cases node with
  | assign => exact hplain (lowerAssignment hhosts _ _)
  | ret => exact hplain (returnStatement hends _ _)
  | branch =>
    refine andThen (lowerCondition hends _ _) fun _ => ite ?_ ?_
    · exact lowerIf hI h hf _ _
    · exact lowerIfElse hI h hf _ _ _
  | loop => exact hplain (lowerWhile hI h hf _ _ _)
  | breakLoop => exact lowerExit hends _ _ _
  | continueLoop => exact lowerExit hends _ _ _
  | varDecl v => exact hplain (lowerVariable hI h hf v)
  | block => exact hplain (lowerBlock hI h hf _ _ _)
  | function fn => exact hplain (lowerFunction hI h (hI.frame hf) fn false)
  | classDecl => exact halt hends _ _ _
  | _ => exact hplain (lowerDiscarded hends _)

end

end Sparing

namespace Lodges

variable {I : Session → Prop} {known : Nat} {A L : Frame → Prop} {B : Nat → Prop} {N : ProcRef → Prop}
  (hI : Lodges I known A L B N)
include hI

/-- Whatever a statement does, `I` survives it. -/
theorem statement (node : Node) (hf : L f) : Spares I f (statement node) := by
  have hwithin (depth : Nat) (node : Node) (f : Frame) (hf : L f) : Spares I f (statementWithin depth node) := by
    induction depth generalizing f node with
    | zero => exact .defect _
    | succ depth ih =>
      refine .withFrame ?_
      cases f.dialect with
      | associative => exact .andThen (.associativeStatement hI ih hf node) fun _ => .pure trivial
      | imperative => exact .imperativeStatement hI ih hf node
  exact hwithin _ node f hf

theorem lowerCode (hf : L f) (unit : List Node) : Spares I f (lowerCode unit) :=
  .andThen (.lowerAll (fun n _ => hI.statement n) hf unit) fun _ => .closeUnit (hI.hosts (hI.frame hf)).endures unit

end Lodges

end Diglot.Lowering
