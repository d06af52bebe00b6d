import Diglot.Proofs.Course.Session
import Diglot.Proofs.Spare.Watch
import Diglot.Proofs.Globals.Unit
import Diglot.Proofs.Split.Update

/-! # The shape of a session

Besides expressions, a unit can halt at the name of a type, at a class that is declared twice or in the
wrong place, at a return in a constructor, and at control flow. For that the names of the classes, which
procedures are constructors, and the kinds of the blocks matter (`Session.shape`). Everything but opening
a block, a procedure or a class leaves the shape as it is.
-/

set_option autoImplicit false

namespace Diglot

open Lowering

/-- What of a session decides where its statements halt, apart from their expressions. -/
structure Shape where
  /-- The names of the classes, and which of their procedures are constructors. -/
  classes : List (String × List Bool)
  /-- Which of the procedures outside of classes are constructors. -/
  procedures : List Bool
  blocks : List BlockKind
  units : Nat

/-- What of a class decides where statements halt. -/
def Class.shape (c : Class) : String × List Bool := (c.name, c.procedures.toList.map Procedure.isConstructor)

namespace Shape

/-- The shape with another block. -/
def addBlock (σ : Shape) (kind : BlockKind) : Shape := { σ with blocks := σ.blocks ++ [kind] }

/-- The shape with another class, which has no procedures yet. -/
def addClass (σ : Shape) (c : String × List Bool) : Shape := { σ with classes := σ.classes ++ [c] }

/-- The shape with another procedure in a class. -/
def addMethod (σ : Shape) (cls : Nat) (isConstructor : Bool) : Shape :=
  { σ with classes := σ.classes.modify cls fun c => (c.1, c.2 ++ [isConstructor]) }

/-- The shape with another procedure. -/
def register (σ : Shape) (scope : Scope) (isConstructor : Bool) : Shape :=
  match Session.ownerClass scope with
  | some cls => σ.addMethod cls isConstructor
  | none => { σ with procedures := σ.procedures ++ [isConstructor] }

end Shape

/-- Changing an entry changes what is seen of the entries in the same place. -/
theorem toList_map_modify {α β : Type} {g : α → β} {f : α → α} {k : β → β} (h : ∀ x, g (f x) = k (g x))
    (a : Array α) (i : Nat) : (a.modify i f).toList.map g = (a.toList.map g).modify i k := by
  apply List.ext_getElem?
  intro j
  rw [List.getElem?_map, Array.getElem?_toList, Array.getElem?_modify, List.getElem?_modify,
    List.getElem?_map, Array.getElem?_toList]
  by_cases hij : i = j
  · simp [hij, h, Function.comp_def]
  · simp [hij]

/-- A change that is not seen leaves everything that is seen as it was. -/
theorem toList_map_modify_same {α β : Type} {g : α → β} {f : α → α} (h : ∀ x, g (f x) = g x)
    (a : Array α) (i : Nat) : (a.modify i f).toList.map g = a.toList.map g := by
  rw [toList_map_modify (k := id) h, List.modify_id]

namespace Session

/-- The shape of the session. -/
def shape (s : Session) : Shape where
  classes := s.classes.classes.toList.map Class.shape
  procedures := s.procedures.toList.map Procedure.isConstructor
  blocks := s.blocks.toList.map Block.kind
  units := s.counters.units

variable {s t : Session}

/-! ## Reading the shape -/

theorem length_blocks_shape (s : Session) : s.shape.blocks.length = s.blocks.size := by simp [shape]

theorem kind?_eq_shape (s : Session) (id : Nat) : s.kind? id = s.shape.blocks[id]? := by
  simp [shape, kind?, block?]

theorem size_classes_shape (s : Session) : s.shape.classes.length = s.classes.size := by
  simp [shape, ClassTable.size]

theorem indexOf?_eq_shape (s : Session) (name : String) :
    s.classes.indexOf? name = s.shape.classes.findIdx? fun c => c.1 == name := by
  unfold shape ClassTable.indexOf?
  rw [List.findIdx?_map]
  rfl

/-- Whether a procedure is a constructor can be seen from the shape. -/
theorem isConstructor_eq_shape (s : Session) (r : ProcRef) :
    (s.procedure? r).map Procedure.isConstructor =
      match r.classScope with
      | none => s.shape.procedures[r.index]?
      | some cls => s.shape.classes[cls]?.bind fun c => c.2[r.index]? := by
  unfold procedure?
  cases hcls : r.classScope with
  | none => simp [shape, ProcedureTable.get?, ProcedureTable.toList]
  | some cls =>
    simp only [shape, ClassTable.procedure?, hcls, ClassTable.get?, ProcedureTable.get?, List.getElem?_map,
      Array.getElem?_toList, Option.bind_eq_bind, Option.bind_some, Option.bind_map]
    cases s.classes.classes[cls]? with
    | none => rfl
    | some c => simp [Class.shape, ProcedureTable.toList]

/-- The reference of the next procedure can be seen from the shape. -/
theorem nextProcedure_eq_shape (s : Session) (scope : Scope) :
    s.nextProcedure scope =
      match ownerClass scope with
      | some cls => ⟨some cls, (s.shape.classes[cls]?.map fun c => c.2.length).getD 0⟩
      | none => ⟨none, s.shape.procedures.length⟩ := by
  unfold nextProcedure
  cases ownerClass scope with
  | none => simp [shape, ProcedureTable.size, ProcedureTable.toList]
  | some cls =>
    simp only [shape, ClassTable.get?, List.getElem?_map, Array.getElem?_toList, Option.map_map]
    cases s.classes.classes[cls]? with
    | none => rfl
    | some c => simp [Class.shape, ProcedureTable.size, ProcedureTable.toList]

/-! ## Changes that leave the shape as it is -/

theorem shape_modifyBlock {g : Block → Block} (hg : ∀ b, (g b).kind = b.kind) (s : Session) (id : Nat) :
    (s.modifyBlock id g).shape = s.shape := by
  unfold shape modifyBlock
  simp only [toList_map_modify_same hg]

theorem shape_emit (s : Session) (block : Nat) (i : Instruction) (span : Span) :
    (s.emit block i span).shape = s.shape := by
  unfold emit
  split
  · rfl
  · refine (shape_modifyBlock ?_ _ block).trans rfl
    exact fun _ => rfl

theorem shape_appendSymbol (s : Session) (cls : Nat) (x : Symbol) :
    ({ s with classes := s.classes.appendSymbol cls x } : Session).shape = s.shape := by
  have hclasses : (s.classes.appendSymbol cls x).classes.toList.map Class.shape =
      s.classes.classes.toList.map Class.shape := by
    unfold ClassTable.appendSymbol ClassTable.modify
    apply toList_map_modify_same
    exact fun _ => rfl
  unfold shape
  simp only [hclasses]

theorem shape_modifyProcedure {g : Procedure → Procedure} (hg : ∀ p, (g p).isConstructor = p.isConstructor)
    (s : Session) (r : ProcRef) : (s.modifyProcedure r g).shape = s.shape := by
  have hmodify (t : ProcedureTable) (i : Nat) :
      (t.modify i g).toList.map Procedure.isConstructor = t.toList.map Procedure.isConstructor :=
    toList_map_modify_same hg _ _
  unfold modifyProcedure
  split
  · unfold shape
    simp only [hmodify]
  · next cls _ =>
    have hclasses : (s.classes.modify cls fun k => { k with procedures := k.procedures.modify r.index g
        }).classes.toList.map Class.shape = s.classes.classes.toList.map Class.shape := by
      unfold ClassTable.modify
      apply toList_map_modify_same
      intro c
      simp only [Class.shape, hmodify]
    unfold shape
    simp only [hclasses]

/-! ## Changes of the shape -/

theorem shape_addBlock (s : Session) (kind : BlockKind) (dialect : Dialect) (parent : Option Nat) :
    (s.addBlock kind dialect parent).shape = s.shape.addBlock kind := by
  have hpush (b : Block) : ({ s with blocks := s.blocks.push b } : Session).shape =
      s.shape.addBlock b.kind := by
    simp [shape, Shape.addBlock]
  cases parent with
  | none => exact hpush _
  | some p =>
    refine (shape_modifyBlock ?_ _ p).trans (hpush _)
    exact fun _ => rfl

theorem shape_appendProcedure (s : Session) (cls : Nat) (p : Procedure) :
    ({ s with classes := s.classes.appendProcedure cls p } : Session).shape =
      s.shape.addMethod cls p.isConstructor := by
  have hclasses : (s.classes.appendProcedure cls p).classes.toList.map Class.shape =
      (s.classes.classes.toList.map Class.shape).modify cls fun c => (c.1, c.2 ++ [p.isConstructor]) := by
    unfold ClassTable.appendProcedure ClassTable.modify
    apply toList_map_modify
    intro c
    simp [Class.shape, ProcedureTable.append, ProcedureTable.toList]
  unfold shape Shape.addMethod
  simp only [hclasses]

theorem shape_register (s : Session) (scope : Scope) (p : Procedure) :
    (s.register scope p).shape = s.shape.register scope p.isConstructor := by
  unfold register Shape.register
  cases ownerClass scope with
  | none => simp [shape, ProcedureTable.append, ProcedureTable.toList]
  | some cls => exact shape_appendProcedure s cls p

theorem shape_append? {c : Class} {classes : ClassTable} (h : s.classes.append? c = some classes) :
    ({ s with classes } : Session).shape = s.shape.addClass c.shape := by
  obtain ⟨-, rfl⟩ := ClassTable.append?_eq_some.mp h
  simp [shape, Shape.addClass]

end Session

/-! ## Runs that agree

Two sessions are parallel if they have the same shape. Two steps agree (`Agrees`) if, from parallel
sessions, they both finish or both halt at the same issue, and leave parallel sessions. Steps that keep
the shape and always end in one way agree (`Agrees.ofOutcome`); so do the others if what they read of the
session is part of its shape.
-/

namespace Session

/-- The session takes a unit and has the given shape. -/
def HasShape (σ : Shape) (s : Session) : Prop := s.isWatching = false ∧ s.shape = σ

/-- Both sessions take a unit and have the same shape. -/
structure Parallel (s t : Session) : Prop where
  left : s.isWatching = false
  right : t.isWatching = false
  shape : s.shape = t.shape

variable {s t : Session}

theorem HasShape.congr {σ : Shape} (h : s.HasShape σ) (hw : t.isWatching = s.isWatching)
    (hshape : t.shape = s.shape) : t.HasShape σ := ⟨hw.trans h.1, hshape.trans h.2⟩

theorem HasShape.emit {σ : Shape} (h : s.HasShape σ) (block : Nat) (i : Instruction) (span : Span) :
    (s.emit block i span).HasShape σ :=
  h.congr (s.sameNames_emit block i span).isWatching (s.shape_emit block i span)

/-- Code of expressions leaves the shape as it is. -/
theorem endures_hasShape (σ : Shape) (block : Nat) : Endures (HasShape σ) 0 block where
  log _ _ h := h
  diagnostics _ _ h := h
  emit _ i span _ h := h.emit block i span
  lateVariable _ _ h := h
  lateMember _ _ _ _ h := h
  lateFunction _ _ h := h
  known _ _ := Nat.zero_le _

end Session

namespace Lowering

variable {α β : Type} {f : Frame} {o p : Option Issue}

/-- A declaration leaves the shape as it is. -/
theorem Sparing.allocate_hasShape (σ : Shape) (d : Declaration) :
    Spares (Session.HasShape σ) f (Lowering.allocate d) := by
  have henter (id : Nat) (x : Symbol) {t : Session} (ht : t.HasShape σ) :
      (t.enterLocal id x).HasShape σ := by
    apply ht.congr (t := t.enterLocal id x) rfl
    apply t.shape_modifyBlock
    exact fun _ => rfl
  refine allocateWith (P := fun _ => True) (fun _ _ => trivial) (fun s bucket size hs => hs.congr rfl ?_)
    (fun s cls x _ hs => hs.congr rfl (s.shape_appendSymbol cls x)) fun s id block x _ hs => henter id _ hs
  simp [Session.shape, units_countersAfter]

/-- Statements that open nothing leave the shape as it is. -/
theorem hosts_hasShape (σ : Shape) (f : Frame) : Hosts (Session.HasShape σ) 0 (fun _ => True) f where
  endures := Session.endures_hasShape σ f.block
  isWatching _ h := h.1
  temporaries _ _ h := h
  uid _ _ h := h
  code s _ hk _ h := h.congr rfl (s.shape_modifyBlock (fun b => (hk b).2) f.block)
  unseen _ _ _ _ _ _ _ _ := trivial
  allocate _ d _ _ _ := Sparing.allocate_hasShape σ d

/-- The step leaves the shape as it is. -/
def Keeps (f : Frame) (m : Lower α) : Prop := ∀ σ, Spares (Session.HasShape σ) f m

/-- Both runs finished, or both halted at the same issue, and what they leave is parallel. Of runs that end
in a defect nothing is said. -/
inductive Same : EStateM.Result Stop State α → EStateM.Result Stop State β → Prop where
  | finished {a : α} {b : β} {s t : State} : s.session.Parallel t.session → Same (.ok a s) (.ok b t)
  | halted {d e : Diagnostic} {s t : State} : d.issue = e.issue → s.session.Parallel t.session →
      Same (.error (.halt d) s) (.error (.halt e) t)
  | left {d : Defect} {s : State} {r : EStateM.Result Stop State β} : Same (.error (.defect d) s) r
  | right {r : EStateM.Result Stop State α} {d : Defect} {t : State} : Same r (.error (.defect d) t)

/-- From parallel sessions both steps finish, or both halt at the same issue. -/
def Agrees (f : Frame) (m : Lower α) (n : Lower β) : Prop :=
  ∀ s t : State, s.session.Parallel t.session → Same (m f s) (n f t)

namespace Agrees

variable {γ : Type}

theorem defect (d : Defect) (n : Lower β) : Agrees f (Lowering.defect d : Lower α) n :=
  fun _ _ _ => .left

theorem pure (a : α) (b : β) : Agrees f (Pure.pure a) (Pure.pure b) := fun _ _ h => .finished h

theorem bind {m : Lower α} {n : Lower β} {k : α → Lower γ} {l : β → Lower γ} (hm : Agrees f m n)
    (hk : ∀ a b, Agrees f (k a) (l b)) : Agrees f (m >>= k) (n >>= l) := by
  intro s t h
  have hfirst := hm s t h
  rw [run_bind, run_bind]
  generalize m f s = r at hfirst ⊢
  generalize n f t = r' at hfirst ⊢
  cases hfirst with
  | finished hst => exact hk _ _ _ _ hst
  | halted hissue hst => exact .halted hissue hst
  | left => exact .left
  | right => exact .right

theorem ite {c : Prop} [Decidable c] {m m' : Lower α} {n n' : Lower β} (hm : Agrees f m n)
    (hn : Agrees f m' n') : Agrees f (if c then m else m') (if c then n else n') := by
  by_cases hc : c
  · rwa [if_pos hc, if_pos hc]
  · rwa [if_neg hc, if_neg hc]

theorem forM {l : List γ} {k : γ → Lower Unit} (h : ∀ a ∈ l, Agrees f (k a) (k a)) :
    Agrees f (l.forM k) (l.forM k) := by
  induction l with
  | nil => exact pure () ()
  | cons a rest ih =>
    apply bind (h a (List.mem_cons_self ..))
    exact fun _ _ => ih fun b hb => h b (List.mem_cons_of_mem a hb)

theorem withReader {g : Frame → Frame} {m : Lower α} {n : Lower β} (h : Agrees (g f) m n) :
    Agrees f (MonadWithReader.withReader g m : Lower α) (MonadWithReader.withReader g n : Lower β) := h

/-- Steps that keep the shape and end in the same way agree. -/
theorem ofOutcome {m : Lower α} {n : Lower β} (hm : Keeps f m) (hn : Keeps f n) (ho : Outcome m o)
    (hp : Outcome n o) : Agrees f m n := by
  intro s t h
  obtain ⟨hleft, hshape⟩ := (hm t.session.shape s ⟨h.left, h.shape⟩).1
  obtain ⟨hright, hshape'⟩ := (hn t.session.shape t ⟨h.right, rfl⟩).1
  have hs := ho f s
  have ht := hp f t
  revert hleft hshape hright hshape' hs ht
  rcases m f s with ⟨a, s'⟩ | ⟨d | d, s'⟩
  · rcases n f t with ⟨b, t'⟩ | ⟨e | e, t'⟩
    · exact fun hl hs hr ht _ _ => .finished ⟨hl, hr, hs.trans ht.symm⟩
    · rintro _ _ _ _ rfl hne
      cases hne
    · exact fun _ _ _ _ _ _ => .right
  · rcases n f t with ⟨b, t'⟩ | ⟨e | e, t'⟩
    · rintro _ _ _ _ hne rfl
      cases hne
    · rintro hl hs hr ht rfl hissue
      exact .halted (Option.some.inj hissue) ⟨hl, hr, hs.trans ht.symm⟩
    · exact fun _ _ _ _ _ _ => .right
  · exact fun _ _ _ _ _ _ => .left

theorem self {m : Lower α} (hm : Keeps f m) (ho : ∃ o, Outcome m o) : Agrees f m m := by
  obtain ⟨o, ho⟩ := ho
  exact ofOutcome hm hm ho ho

/-! ### Reading -/

theorem withFrame {k l : Frame → Lower γ} (h : Agrees f (k f) (l f)) :
    Agrees f (MonadReader.read >>= k) (MonadReader.read >>= l) := h

theorem withSession {k l : Session → Lower γ}
    (h : ∀ s t : Session, s.Parallel t → Agrees f (k s) (l t)) :
    Agrees f (getSession >>= k) (getSession >>= l) :=
  fun s t hst => h s.session t.session hst s t hst

end Agrees

end Lowering

end Diglot
