import Diglot.Proofs.Spare.Watch
import Diglot.Proofs.Spare.Statement
import Diglot.Proofs.Flow.Stream
import Diglot.Proofs.Course.Session

/-! # Statements spare what a session had before

Every statement of a further unit retains what the session had (`Sparing.statement`). Blocks, classes and
procedures that it changes are new ones; an inner frame is apart from what was there because the outer
one is.
-/

set_option autoImplicit false

namespace Diglot.Lowering

variable {α β : Type} {f : Frame} {g : Session}

namespace Sparing

/-! ## Declaring -/

theorem appendLocal (hf : g.IsApart f) (x : Symbol) : Spares g.Retains f (appendLocal x) := by
  refine withFrame (andThen (getBlock _) fun b => andThen (modifySession fun t ht => ?_) fun _ => ?_)
  · exact ht.modifyBlock hf.block _
  · exact pure trivial

theorem appendMember {cls : Nat} (hcls : g.classes.size ≤ cls) (x : Symbol) :
    Spares g.Retains f (appendMember cls x) := by
  intro s hs
  refine ⟨?_, fun _ _ _ => trivial⟩
  simp only [Lowering.appendMember, run_bind, run_getSession]
  cases hc : s.session.classes.get? cls with
  | none => exact hs
  | some c =>
    have hsome : (s.session.classes.get? cls).isSome := by simp [hc]
    have hentered := hs.enterMember hcls hsome x
    simp only [run_bind, run_modifySession, run_ite]
    cases hstatic : x.isStatic with
    | false => simpa [Session.enterMember, hstatic, ending] using hentered
    | true =>
      simp only [if_true, modifyBlock_run]
      cases hb : Session.block? _ 0 with
      | some b => simpa [Session.enterMember, hstatic, ending] using hentered
      | none => exact hs.appendSymbol hcls x

theorem allocate (hf : g.IsApart f) (d : Declaration) : Spares g.Retains f (allocate d) := by
  refine withFrame (withSession fun s hs => ?_)
  refine andThen (modifySession fun t ht => ht.congr rfl rfl rfl rfl rfl rfl rfl rfl) fun _ => ?_
  -- A member is declared outside of procedures, in a class of the unit.
  have hcls (cls : Nat) (hbucket : bucketOf s.isWatching f.scope d.isStatic = .classStatic cls ∨
      bucketOf s.isWatching f.scope d.isStatic = .classInstance cls) : g.classes.size ≤ cls := by
    unfold bucketOf Scope.function at hbucket
    cases hp : f.scope.procedure with
    | some r => simp [hs.isWatching, hp] at hbucket
    | none =>
      cases hc : f.scope.classScope with
      | none => simp [hs.isWatching, hp, hc] at hbucket
      | some c =>
        have heq : c = cls := by
          cases hd : d.isStatic <;> simpa [hs.isWatching, hp, hc, hd] using hbucket
        rw [← heq]
        exact hf.cls hp c hc
  split
  · next cls hbucket => exact appendMember (hcls cls (.inl hbucket)) _
  · next cls hbucket => exact appendMember (hcls cls (.inr hbucket)) _
  · exact appendLocal hf _

/-- Any name may be declared apart from what was there. -/
theorem hosts (hf : g.IsApart f) : Hosts g.Retains g.lateVariables.size (fun _ => True) f where
  endures := Session.endures_retains hf
  isWatching _ hs := hs.isWatching
  temporaries _ _ hs := hs.congr rfl rfl rfl rfl rfl rfl rfl rfl
  uid _ _ hs := hs.congr rfl rfl rfl rfl rfl rfl rfl rfl
  code _ _ _ _ hs := hs.modifyBlock hf.block _
  unseen _ _ _ _ _ _ _ _ := trivial
  allocate _ d hsite _ _ := allocate (hf.flags hsite) d

/-! ## Opening blocks and procedures -/

/-- A block that is added is a new one. -/
theorem addBlock {parent : Nat} (hp : g.blocks.size ≤ parent) (kind : BlockKind) (dialect : Dialect) :
    Sparing g.Retains f (addBlock kind dialect parent) fun id => g.blocks.size ≤ id := by
  refine withSession fun s hs => andThen (getBlock _) fun _ => andThen (modifySession fun t ht => ?_) ?_
  · exact ht.addBlock hp kind dialect
  · exact fun _ => pure (Nat.le_of_lt hs.size)

/-- A procedure that is registered is a new one. -/
theorem registerProcedure (hf : g.IsApart f) (p : Procedure) :
    Sparing g.Retains f (registerProcedure p) g.IsNewProcedure := by
  refine withFrame (withSession fun s hs => ?_)
  split
  · next cls hcls =>
    have hnew : g.classes.size ≤ cls := by
      cases hp : f.scope.procedure with
      | some r => simp [hp] at hcls
      | none => exact hf.cls hp cls (by simpa [hp] using hcls)
    split
    · exact defect _
    · refine andThen (modifySession fun t ht => ?_) fun _ => pure hnew
      exact ht.modifyClass hnew fun _ _ hx => hx
  · refine andThen (modifySession fun t ht => ?_) fun _ => pure hs.size_procedures
    exact ht.withProcedures (prefix_push ht.procedures _)

end Sparing

/-- Statements of a further unit are lowered apart from what was there. -/
theorem lodges_retains :
    Lodges g.Retains g.lateVariables.size g.IsApart g.IsApart (g.blocks.size ≤ ·) g.IsNewProcedure where
  frame hf := hf
  hosts hf := Sparing.hosts hf
  site hf hsite := hf.flags hsite
  declareBoxed d hf := by
    refine .andThen (.allocate hf d) fun r => .andThen (.getSymbol r) fun x => ?_
    exact .emitHeapBox (Session.endures_retains hf) (fun s i span hs => hs.emit hf i span) x
  member d hf _ := .allocate hf d
  addBlock kind dialect hf := .addBlock hf.block kind dialect
  owner _ hid hs := hs.modifyBlock hid _
  within _ hf hid := ⟨hid, hf.cls, hf.debugMap⟩
  registerProcedure p hf := .registerProcedure hf p
  modifyProcedure k hr hs := hs.modifyProcedure hr k
  setLocals _ hs := hs.congr rfl rfl rfl rfl rfl rfl rfl rfl
  body _ hf hid hproc := by
    refine ⟨hid, fun hnone => ?_, hf.debugMap⟩
    change Scope.procedure _ = none at hnone
    rw [hnone] at hproc
    cases hproc
  addClass hf hs happ := by
    -- The scope of a class that is declared is that of a new class.
    refine ⟨hs.appendClass happ, hf.block, fun _ cls hcls => ?_, hf.debugMap⟩
    cases hcls
    exact hs.size_classes

/-- Whatever a statement of a further unit does, what the session had before is retained. -/
theorem Sparing.statement (node : Node) (hf : g.IsApart f) : Spares g.Retains f (statement node) :=
  lodges_retains.statement node hf

end Diglot.Lowering

/-! ## A further unit disturbs none of the earlier ones

`Used.compile_retains`: whatever a further unit is, and however its compilation ends, the session retains
all that it had before.

What is emitted into a new block must not touch the recorded places of old ones. For this, only blocks
that exist have places in the debug map (`DebugPlaced`).
-/

namespace Diglot

open Lowering

/-! ### Recorded places -/

namespace Session

/-- Every recorded place is in a block that exists. -/
def DebugPlaced (s : Session) : Prop := ∀ e ∈ s.debugMap.entries, e.block < s.blocks.size

theorem DebugPlaced.grow {s t : Session} (h : s.DebugPlaced) (hmap : t.debugMap = s.debugMap)
    (hsize : s.blocks.size ≤ t.blocks.size) : t.DebugPlaced := by
  intro e he
  rw [hmap] at he
  exact Nat.lt_of_lt_of_le (h e he) hsize

theorem DebugPlaced.record {s : Session} (h : s.DebugPlaced) {block : Nat}
    (hblock : block < s.blocks.size) (pc : Nat) (span : Span) :
    { s with debugMap := s.debugMap.record block pc span }.DebugPlaced := by
  intro e he
  unfold DebugMap.record at he
  split at he
  · obtain rfl | hold := DebugMap.mem_insert he
    · exact hblock
    · exact h e hold
  · exact h e he

theorem debugMap_modifyProcedure (s : Session) (r : ProcRef) (k : Procedure → Procedure) :
    (s.modifyProcedure r k).debugMap = s.debugMap := by
  unfold modifyProcedure
  split <;> rfl

theorem debugMap_register (s : Session) (scope : Scope) (p : Procedure) :
    (s.register scope p).debugMap = s.debugMap := by
  unfold register
  split <;> rfl

theorem debugMap_declare (s : Session) (f : Frame) (d : Declaration) :
    (s.declare f d).debugMap = s.debugMap := by
  obtain ⟨cls, counters, -, -, -, -, heq⟩ | ⟨counters, -, -, heq⟩ := s.declare_cases f d
  · rw [heq]
    unfold enterMember
    split <;> rfl
  · rw [heq]
    rfl

end Session

namespace Lowering

variable {K : OpCode → Prop} {f g : Frame} {s t : Session} {close : Session → Session → Prop}

theorem Change.debugPlaced (h : Change K f s t) (hs : s.DebugPlaced) : t.DebugPlaced := by
  have hsize : s.blocks.size ≤ t.blocks.size := Nat.le_of_eq h.size_blocks.symm
  cases h with
  | emit i span _ hcan =>
    cases hw : s.isWatching with
    | true =>
      refine hs.grow ?_ hsize
      simp [Session.emit, hw]
    | false =>
      have hblock : (s.block? f.block).isSome := by simpa [Session.CanEmit, hw] using hcan
      obtain ⟨b, hb⟩ := Option.isSome_iff_exists.mp hblock
      have hlt : f.block < s.blocks.size := (Array.getElem?_eq_some_iff.mp hb).1
      simp only [Session.emit, hw] at hsize ⊢
      exact (hs.record hlt _ span).grow rfl hsize
  | patch =>
    refine hs.grow ?_ hsize
    unfold Session.replaceCode
    split <;> rfl
  | declare d => exact hs.grow (s.debugMap_declare f d) hsize
  | _ => exact hs.grow rfl hsize

theorem Opens.debugMap_eq (h : Opens f s g t close) : t.debugMap = s.debugMap := by
  cases h with
  | block => rfl
  | procedure p message =>
    change (Session.modifyProcedure _ _ _).debugMap = _
    rw [Session.debugMap_modifyProcedure]
    exact Session.debugMap_register s _ _
  | cls => rfl

theorem Opens.close_debugMap (h : Opens f s g t close) {v w : Session} (hc : close v w) :
    w.debugMap = v.debugMap := by
  cases h with
  | procedure =>
    obtain rfl | ⟨entry, rfl⟩ := hc
    · rfl
    · exact Session.debugMap_modifyProcedure _ _ _
  | _ => rw [hc]

theorem invariant_debugPlaced : Invariant fun _ s => s.DebugPlaced where
  change hs h := h.debugPlaced hs
  opens hs ho := by
    refine hs.grow ho.debugMap_eq ?_
    obtain ⟨-, hblocks⟩ | ⟨-, hsize, -⟩ := ho.block_cases
    · exact Nat.le_of_eq (congrArg Array.size hblocks.symm)
    · omega
  closes _ ho _ hu hc := by
    apply hu.grow (ho.close_debugMap hc)
    exact Nat.le_of_eq (congrArg Array.size (ho.close_eq hc).2.1.symm)

end Lowering

namespace Session

theorem DebugPlaced.addBlock {s : Session} (h : s.DebugPlaced) (kind : BlockKind) (dialect : Dialect)
    (parent : Option Nat) : (s.addBlock kind dialect parent).DebugPlaced := by
  refine h.grow ?_ (by simp)
  cases parent <;> rfl

theorem DebugPlaced.modifyBlock {s : Session} (h : s.DebugPlaced) (id : Nat) (k : Block → Block) :
    (s.modifyBlock id k).DebugPlaced := h.grow rfl (by simp)

theorem DebugPlaced.importSymbol {s : Session} (h : s.DebugPlaced) (name : String) (type : Ty)
    (library : String) : (s.importSymbol name type library).2.DebugPlaced := by
  have hstart :
      (if s.blocks.isEmpty then s.addBlock .global .associative none else s).DebugPlaced := by
    split
    · exact h.addBlock _ _ _
    · exact h
  apply DebugPlaced.modifyBlock
  exact hstart

theorem DebugPlaced.unitStart {s : Session} (h : s.DebugPlaced) (dialect : Dialect) :
    (s.unitStart dialect).2.DebugPlaced := by
  have hquiet : { s with isWatching := false }.DebugPlaced := h
  have hopen : (openUnit { s with isWatching := false } dialect).2.DebugPlaced := by
    unfold openUnit
    split
    · split
      · exact hquiet.addBlock _ _ _
      · exact hquiet.modifyBlock _ _
    · exact hquiet.addBlock _ _ _
  exact hopen

theorem Used.debugPlaced {s : Session} (h : s.Used) : s.DebugPlaced := by
  obtain ⟨options, h⟩ := h
  induction h using Leads.induct with
  | refl => exact fun e he => by cases he
  | setFile t file ih => exact ih
  | setParsingModule t on ih => exact ih
  | importSymbol t name type library _ ih => exact ih.importSymbol name type library
  | addClass t c classes _ _ ih => exact ih
  | addMethod t cls p _ ih => exact ih
  | addProcedure t p _ ih => exact ih
  | compile t unit dialect _ ht ih =>
    have hused : t.Used := ⟨options, ht⟩
    apply invariant_debugPlaced.evolves (compile_evolves (hused.no_defect.1 unit dialect))
    exact ih.unitStart dialect
  | watchExpression t id b node hb _ ht ih =>
    have hused : t.Used := ⟨options, ht⟩
    obtain ⟨u, hu, heq⟩ := watch_evolves hb (hused.no_defect.2.1 id node)
    have hstart : { t with isWatching := true }.DebugPlaced := ih
    have hend : u.DebugPlaced := invariant_debugPlaced.evolves hu hstart
    rw [heq]
    exact hend

/-! ### Compiling a further unit -/

section
variable {s : Session} (hunits : s.counters.units ≠ 0) (dialect : Dialect)
include hunits

theorem unitStart_further :
    s.unitStart dialect = (s.blocks.size,
      { { s with isWatching := false }.addBlock .global dialect (some 0) with
        counters := { s.counters with units := s.counters.units + 1 } }.note .debug .code
          ("unit #" ++ toString (s.counters.units + 1) ++ " in " ++ dialect.name ++ " block " ++
            toString s.blocks.size)) := by
  unfold unitStart openUnit
  rw [if_neg hunits]
  rfl

/-- The block of the unit becomes a child of the first block. -/
theorem retains_unitStart : s.Retains (s.unitStart dialect).2 := by
  rw [unitStart_further hunits]
  have hblocks : ∀ id b, s.block? id = some b →
      (s.addBlock .global dialect (some 0)).block? id = some { b with
        children := if id = 0 then b.children.push s.blocks.size else b.children } := by
    intro id b hb
    have hne : id ≠ s.blocks.size := Nat.ne_of_lt (Retains.lt_of_block? hb)
    have hpush : ({ s with
        blocks := s.blocks.push { id := s.blocks.size, kind := .global, dialect, parent := some 0 } } :
          Session).block? id = some b := by
      simpa only [block?, Array.getElem?_push, if_neg hne] using hb
    simp only [addBlock, block?_modifyBlock, hpush]
    by_cases hid : id = 0
    · rw [if_pos hid.symm, if_pos hid]
      rfl
    · rw [if_neg (Ne.symm hid), if_neg hid]
  refine ⟨rfl, ?_, fun id b hb => ⟨[], by simp, fun _ => rfl, hblocks id b hb⟩, List.prefix_refl _,
    List.prefix_refl _, List.prefix_refl _, List.prefix_refl _, List.prefix_refl _,
    List.Sublist.refl _, fun e he => .inl he⟩
  change s.blocks.size < (Session.addBlock _ _ _ _).blocks.size
  rw [size_blocks_addBlock]
  exact Nat.lt_succ_self _

/-- The unit is lowered apart from all that was there. -/
theorem isApart_unitFrame (hplaced : s.DebugPlaced) (unit : List Node) :
    s.IsApart (unitFrame (s.unitStart dialect).1 .global dialect unit) := by
  rw [unitStart_further hunits]
  refine ⟨Nat.le_refl _, fun _ cls hcls => ?_, hplaced⟩
  cases hcls

end

/-- Compiling a further unit, whether it succeeds or halts, disturbs none of the earlier ones. A block
keeps all that it has; only the first block gets a child, which is the block of the unit, and symbols,
which mirror static members of new classes. All other tables only grow at their ends, and the debug map
only by places in new blocks. -/
theorem Used.compile_retains {s : Session} (h : s.Used) (hunits : s.counters.units ≠ 0)
    (unit : List Node) (dialect : Dialect) : s.Retains (s.compile unit dialect).2 := by
  have hstart := retains_unitStart hunits dialect
  have hapart := isApart_unitFrame hunits dialect h.debugPlaced unit
  have hcode : Spares s.Retains (unitFrame (s.unitStart dialect).1 .global dialect unit)
      (lowerCode unit) :=
    Sparing.andThen (Sparing.lowerAll (fun n _ => Sparing.statement n) hapart unit) fun _ =>
      Sparing.closeUnit (Sparing.hosts hapart).endures unit
  have hend := (hcode { session := (s.unitStart dialect).2 } hstart).1
  rw [compile_eq]
  cases hrun : lowerCode unit _ _ <;> rw [hrun] at hend <;> exact hend

/-- A unit that declares a class with a static member, and then halts at a second declaration of it,
leaves the first unit as it was; the first block has got a child and the mirror of the member. -/
theorem halted_retains :
    let x (name : String) : Node := .identifier { name, dims := [], guides := [], span := .nil }
    let member : Variable :=
      { name := "n", type := .var, value := none, isStatic := true, access := .isPublic, region := .heap
        span := .nil }
    let cls : Node := .classDecl
      { name := "C", base := none, members := [member], methods := [], attributes := [], span := .nil }
    let s := ((new {}).compile [.assign (x "a") (.literal .int "1" .nil) .nil] .associative).2
    let t := (s.compile [cls, cls] .associative).2
    s.Used ∧ s.counters.units = 1 ∧ s.Retains t ∧
      (s.compile [cls, cls] .associative).1.toBool = false ∧
      (t.block? 0).map (fun b => (b.children, b.symbols.symbols.map Symbol.name)) =
        some (#[1], #["a", "n"]) := by
  intro x member cls s t
  have hs : s.Used := .compile _ .associative (.new {})
  have hunits : s.counters.units = 1 := by decide +kernel
  refine ⟨hs, hunits, hs.compile_retains ?_ [cls, cls] .associative, ?_, ?_⟩
  · rw [hunits]
    exact Nat.one_ne_zero
  · decide +kernel
  · decide +kernel

end Session

end Diglot
