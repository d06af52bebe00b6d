import Diglot.Proofs.Boxes.Basic
import Diglot.Proofs.Chains.Silent
import Diglot.Proofs.Law.Store
import Diglot.Proofs.Slots.Session

/-! # Variables on the heap are boxed once

A variable declaration enters its variable and makes the box at once (`Sparing.declareBoxed`). Members are
entered without (`Sparing.allocateMember`), and whatever else statements do makes no box and enters nothing that
needs one. So every statement leaves all variables boxed (`lodges_boxing`).

* `Reached.boxed`: all variables are boxed in every session.
* `Traced.boxes_variables`: what this says of the instructions, and of the members of classes.

The members of a class get a heap index too when they are on the heap, but nothing makes their boxes
(`heap_member_lacks_box`).
-/

set_option autoImplicit false

namespace Diglot

open Lowering Instruction

/-! ## Statements -/

namespace Session

/-- All variables have their boxes. `w` tells that a watch expression is lowered. -/
structure Boxing (w : Bool) (s : Session) : Prop where
  isWatching : s.isWatching = w
  boxed : s.Boxed

variable {w : Bool} {s t : Session}

theorem Boxed.ofBlocks (h : s.Boxed) (hblocks : t.blocks = s.blocks) (hwatch : t.watch = s.watch)
    (hheap : s.counters.heap ≤ t.counters.heap) : t.Boxed := h.calm (.ofBlocks hblocks hwatch hheap)

theorem Boxing.calm (h : s.Boxing w) (hw : t.isWatching = s.isWatching) (hcalm : s.Calm t) : t.Boxing w :=
  ⟨hw.trans h.isWatching, h.boxed.calm hcalm⟩

theorem Boxing.ofBlocks (h : s.Boxing w) (hw : t.isWatching = s.isWatching) (hblocks : t.blocks = s.blocks)
    (hwatch : t.watch = s.watch) (hheap : s.counters.heap ≤ t.counters.heap) : t.Boxing w :=
  h.calm hw (.ofBlocks hblocks hwatch hheap)

theorem Boxing.modifyBlock (h : s.Boxing w) {id : Nat} {k : Block → Block}
    (hk : ∀ b, s.block? id = some b → b.Calm (k b)) : (s.modifyBlock id k).Boxing w := h.calm rfl (.modifyBlock hk)

theorem Boxing.addBlock (h : s.Boxing w) (kind : BlockKind) (dialect : Dialect) (parent : Option Nat) :
    (s.addBlock kind dialect parent).Boxing w := by
  refine h.calm ?_ (.addBlock s kind dialect parent)
  cases parent <;> rfl

theorem Boxing.modifyProcedure (h : s.Boxing w) (r : ProcRef) (k : Procedure → Procedure) :
    (s.modifyProcedure r k).Boxing w := by
  unfold Session.modifyProcedure
  split <;> exact h.ofBlocks rfl rfl rfl (Nat.le_refl _)

end Session

namespace Lowering

variable {w : Bool} {f : Frame}

theorem endures_boxing (w : Bool) (block : Nat) : Endures (Session.Boxing w) 0 block where
  log _ _ h := h.ofBlocks rfl rfl rfl (Nat.le_refl _)
  diagnostics _ _ h := h.ofBlocks rfl rfl rfl (Nat.le_refl _)
  emit s i span hi h := h.calm (s.sameNames_emit block i span).isWatching (.emit hi s block span)
  lateVariable _ _ h := h.ofBlocks rfl rfl rfl (Nat.le_refl _)
  lateMember _ _ _ _ h := h.ofBlocks rfl rfl rfl (Nat.le_refl _)
  lateFunction _ _ h := h.ofBlocks rfl rfl rfl (Nat.le_refl _)
  known _ _ := Nat.zero_le _

theorem heap_le_countersAfter (d : Declaration) (s : Session) (bucket : Bucket) (size : Nat) :
    s.counters.heap ≤ (countersAfter d s bucket size).heap := by
  rw [heap_countersAfter]
  split
  · exact Nat.le_succ _
  · exact Nat.le_refl _

namespace Sparing

/-! ### Declarations that need no box -/

/-- A parameter, a variable on the stack or a member needs no box. -/
theorem allocateCalm {d : Declaration} (hd : ∀ s bucket box, ¬ (symbolOf d s f bucket).HasBox box) :
    Spares (Session.Boxing w) f (Lowering.allocate d) := by
  refine allocateWith (P := fun x => ∀ box, ¬ x.HasBox box) hd (fun s bucket size hs => ?_) (fun s cls x _ hs => ?_)
    fun s id block x hx hs => hs.modifyBlock fun b _ => .enter (fun box h => ?_) b
  · exact hs.ofBlocks rfl rfl rfl (heap_le_countersAfter ..)
  · exact hs.ofBlocks rfl rfl rfl (Nat.le_refl _)
  · exact hx box ⟨h.isMember, h.region, h.heapIndex⟩

theorem allocateStack {d : Declaration} (hd : d.region = .stack) :
    Spares (Session.Boxing w) f (Lowering.allocate d) := by
  refine allocateCalm fun s bucket box hbox => ?_
  cases hd.symm.trans hbox.region

theorem allocateMember {cls : Nat} (hf : f.scope = .inClass cls) (d : Declaration) :
    Spares (Session.Boxing w) f (Lowering.allocate d) := by
  refine allocateCalm fun s bucket box hbox => ?_
  have hmember := hbox.isMember
  unfold Symbol.isMember symbolOf at hmember
  rw [hf] at hmember
  cases hmember

end Sparing

theorem hosts_boxing (f : Frame) : Hosts (Session.Boxing false) 0 (fun _ => True) f where
  endures := endures_boxing false f.block
  isWatching _ h := h.isWatching
  uid _ _ h := h.ofBlocks rfl rfl rfl (Nat.le_refl _)
  code s k hk hpatches h := by
    refine h.modifyBlock fun b hb => .ofPatches ?_ (hpatches b hb)
    exact congrArg Header.symbols (hk b).1
  temporaries _ _ h := h.ofBlocks rfl rfl rfl (Nat.le_refl _)
  unseen _ _ _ _ _ _ _ _ := trivial
  allocate _ _ _ hd _ := .allocateStack hd

/-! ### Declarations with their boxes -/

/-- The code of the block has changed, but neither its variables nor other code. -/
structure Recodes (s t : Session) (id : Nat) (b : Block) (code : Array Instruction) : Prop where
  own : ∃ c, t.block? id = some c ∧ c.symbols = b.symbols ∧ c.code = code
  others : ∀ j, j ≠ id → t.block? j = s.block? j
  watch : t.watch = s.watch
  counters : t.counters = s.counters
  isWatching : t.isWatching = s.isWatching

theorem run_emitSilent_recodes {s : State} {b : Block} (hw : s.session.isWatching = false)
    (hb : s.session.block? f.block = some b) (i : Instruction) (span : Span) :
    ∃ n t, emitSilent i span f s = .ok n t ∧
      Recodes s.session t.session f.block b (b.code.push { i with debug := none }) := by
  have hcan : s.session.CanEmit f.block := .inr (by rw [hb]; rfl)
  refine ⟨_, _, run_emitWith i span none f s hcan, ?_⟩
  obtain ⟨log, hlog⟩ := s.session.noteEmission_eq f (s.session.stream f.block).size { i with debug := none }
  rw [hlog]
  unfold Session.emit
  rw [if_neg (by simp [hw])]
  have hblock (debugMap : DebugMap) (j : Nat) :
      ({ s.session with log, debugMap } : Session).block? j = s.session.block? j := rfl
  refine ⟨?_, fun j hj => ?_, rfl, rfl, rfl⟩
  · rw [Session.block?_modifyBlock, if_pos rfl, hblock, hb]
    exact ⟨_, rfl, rfl, rfl⟩
  · rw [Session.block?_modifyBlock, if_neg (Ne.symm hj), hblock]

/-- The move of the size and the making of the box are put at the end of the block. -/
theorem run_emitHeapBox {s : State} {b : Block} (hw : s.session.isWatching = false)
    (hb : s.session.block? f.block = some b) {x : Symbol} {box : Nat} (hbox : x.heapIndex = some box) :
    ∃ t, emitHeapBox x f s = .ok () t ∧
      Recodes s.session t.session f.block b ((b.code.push (sizing x.size)).push (allocation box)) := by
  obtain ⟨m, t, hmov, ht⟩ := run_emitSilent_recodes hw hb (sizing x.size) .nil
  obtain ⟨c, hc, hsymbols, hcode⟩ := ht.own
  obtain ⟨n, u, halloc, hu⟩ := run_emitSilent_recodes (ht.isWatching.trans hw) hc (allocation box) .nil
  obtain ⟨c', hc', hsymbols', hcode'⟩ := hu.own
  refine ⟨u, ?_, ⟨c', hc', hsymbols'.trans hsymbols, ?_⟩, fun j hj => (hu.others j hj).trans (ht.others j hj),
    hu.watch.trans ht.watch, hu.counters.trans ht.counters, hu.isWatching.trans ht.isWatching⟩
  · unfold emitHeapBox
    rw [hbox]
    change (emitSilent (sizing x.size) .nil >>= fun _ => emitSilent (allocation box) .nil >>= fun _ => pure ()) f s = _
    rw [run_bind, hmov]
    change (emitSilent (allocation box) .nil >>= fun _ => pure ()) f t = _
    rw [run_bind, halloc]
    rfl
  · rw [hcode', hcode]
    rfl

/-- A variable that is entered and boxed at once comes together with its box. -/
theorem boxes_of_recodes {s t : Session} {id : Nat} {b : Block} {x : Symbol} {counters : Counters}
    (hb : s.block? id = some b) (hheap : counters.heap = s.counters.heap + 1) (hx : x.HasBox s.counters.heap)
    (ht : Recodes ({ s with counters }.enterLocal id x) t id { b with symbols := b.symbols.append x }
      ((b.code.push (sizing x.size)).push (allocation s.counters.heap))) : s.Boxes t id b x := by
  refine ⟨hb, ht.own, fun j hj => ?_, ?_, ?_, hx⟩
  · rw [ht.others j hj, Session.enterLocal, Session.block?_modifyBlock, if_neg (Ne.symm hj)]
    rfl
  · rw [ht.watch]
    rfl
  · rw [ht.counters]
    exact hheap

namespace Sparing

/-- The variable and its box come together. -/
theorem declareBoxed (hf : f.DeclaresLocals) (d : Declaration) :
    Spares (Session.Boxing false) f (declareBoxed d) := by
  intro s hs
  refine ⟨?_, fun _ _ _ => trivial⟩
  have hrun := run_allocate_local hf d s
  let bucket := bucketOf s.session.isWatching f.scope d.isStatic
  let counters := countersAfter d s.session bucket 1
  have hheap : counters.heap = _ := heap_countersAfter d s.session bucket 1
  have hle : s.session.counters.heap ≤ counters.heap := heap_le_countersAfter d s.session bucket 1
  unfold Lowering.declareBoxed
  rw [run_bind, hrun]
  cases hb : s.session.block? f.block with
  | none => exact hs.ofBlocks rfl rfl rfl hle
  | some b =>
    let x := s.session.declared f d
    let u : State := { s with session := { s.session with counters }.enterLocal f.block x }
    have hblock : u.session.block? f.block = some { b with symbols := b.symbols.append x } := by
      change (Session.modifyBlock _ _ _).block? _ = _
      rw [Session.block?_modifyBlock, if_pos rfl]
      exact congrArg (Option.map _) hb
    have hsymbol : u.session.symbol? ⟨.block f.block, b.symbols.size⟩ = some { x with position := b.symbols.size } := by
      rw [Session.symbol?_block, Session.header?_of_block? hblock]
      exact SymbolTable.get?_append_size _ _
    have hindex : x.heapIndex = if d.region = .heap then some s.session.counters.heap else none := rfl
    change Session.Boxing false
      (ending ((Lowering.getSymbol ⟨.block f.block, b.symbols.size⟩ >>= Lowering.emitHeapBox) f u)).session
    rw [run_bind, run_getSymbol, hsymbol]
    by_cases hregion : d.region = .heap
    · rw [if_pos hregion] at hheap hindex
      obtain ⟨t, hbox, ht⟩ := run_emitHeapBox (f := f) (s := u) (x := { x with position := b.symbols.size })
        hs.isWatching hblock hindex
      have hboxes := boxes_of_recodes hb hheap ⟨isMember_declared hf s.session d, hregion, hindex⟩ ht
      dsimp only
      rw [hbox]
      exact ⟨ht.isWatching.trans hs.isWatching, hs.boxed.box hboxes⟩
    · rw [if_neg hregion] at hindex
      have hrun : Lowering.emitHeapBox { x with position := b.symbols.size } f u = .ok () u := by
        unfold Lowering.emitHeapBox
        dsimp only
        rw [hindex]
        rfl
      dsimp only
      rw [hrun]
      have hcounted : Session.Boxing false { s.session with counters } := hs.ofBlocks rfl rfl rfl hle
      exact hcounted.modifyBlock fun b _ => .enter (fun box hbox => hregion hbox.region) b

end Sparing

/-- Every statement leaves all variables boxed. -/
theorem lodges_boxing : Lodges (Session.Boxing false) 0 (fun _ => True) Frame.DeclaresLocals (fun _ => True)
    (fun _ => True) where
  frame _ := trivial
  hosts {f} _ := hosts_boxing f
  site hf hsite := hf.site hsite
  declareBoxed d hf := .declareBoxed hf d
  member d _ hscope := .allocateMember hscope d
  addBlock kind dialect _ := by
    refine .withSession fun s _ => .andThen (.getBlock _) fun _ => .andThen (.modifySession fun t ht => ?_) fun _ => ?_
    · exact ht.addBlock kind dialect _
    · exact .pure trivial
  owner r _ hs := hs.modifyBlock fun b _ => .same rfl rfl
  within _ hf _ := hf
  registerProcedure p _ := by
    refine .withFrame (.withSession fun s _ => ?_)
    split
    · split
      · exact .defect _
      · exact .andThen (.modifySession fun t ht => ht.ofBlocks rfl rfl rfl (Nat.le_refl _)) fun _ => .pure trivial
    · exact .andThen (.modifySession fun t ht => ht.ofBlocks rfl rfl rfl (Nat.le_refl _)) fun _ => .pure trivial
  modifyProcedure k _ hs := hs.modifyProcedure _ k
  setLocals _ hs := hs.ofBlocks rfl rfl rfl (Nat.le_refl _)
  body {f id scope} _ _ _ hproc := by
    intro (hnone : scope.procedure = none)
    rw [hnone] at hproc
    cases hproc
  addClass _ hs _ := ⟨hs.ofBlocks rfl rfl rfl (Nat.le_refl _), trivial⟩

end Lowering

namespace Session

/-! ## Calls -/

variable {s t : Session}

theorem boxed_new (options : Options) : (Session.new options).Boxed := by
  have hnone (id pc : Nat) : (Session.new options).instruction? id pc = none := by
    rw [instruction?_eq]
    rfl
  refine ⟨fun id b k x box hb => ?_, fun id pc i hi => ?_, fun box id pc id' pc' hi => ?_, fun i hi => ?_⟩
  · cases hb
  · cases (hnone id pc).symm.trans hi
  · cases (hnone id pc).symm.trans hi
  · exact absurd hi (Array.not_mem_empty i)

section
variable (h : s.Boxed)
include h

theorem Boxed.addBlock (kind : BlockKind) (dialect : Dialect) (parent : Option Nat) :
    (s.addBlock kind dialect parent).Boxed := h.calm (.addBlock s kind dialect parent)

theorem Boxed.modifyBlock {id : Nat} {k : Block → Block} (hk : ∀ b, s.block? id = some b → b.Calm (k b)) :
    (s.modifyBlock id k).Boxed := h.calm (.modifyBlock hk)

theorem Boxed.register (scope : Scope) (p : Procedure) : (s.register scope p).Boxed := by
  unfold Session.register
  split <;> exact h.ofBlocks rfl rfl (Nat.le_refl _)

theorem Boxed.unitStart (dialect : Dialect) : (s.unitStart dialect).2.Boxed := by
  have hquiet : Boxed { s with isWatching := false } := h.ofBlocks rfl rfl (Nat.le_refl _)
  have hopen : (openUnit { s with isWatching := false } dialect).2.Boxed := by
    unfold openUnit
    split
    · split
      · exact hquiet.addBlock .global dialect none
      · exact hquiet.modifyBlock fun b _ => .same rfl rfl
    · exact hquiet.addBlock .global dialect (some 0)
  exact hopen.ofBlocks rfl rfl (Nat.le_refl _)

/-- A unit boxes the variables that it declares, whether it is compiled to the end or not. -/
theorem Boxed.compile (unit : List Node) (dialect : Dialect) : (s.compile unit dialect).2.Boxed := by
  have hlocals : Frame.DeclaresLocals (unitFrame (s.unitStart dialect).1 .global dialect unit) := fun _ => rfl
  have hcode := lodges_boxing.lowerCode hlocals unit { session := (s.unitStart dialect).2 }
    ⟨s.isWatching_unitStart dialect, h.unitStart dialect⟩
  have hend := hcode.1.boxed
  rw [compile_eq]
  cases hrun : lowerCode unit _ _ <;> rw [hrun] at hend <;> exact hend

/-- The variable of a watch expression is on the stack. -/
theorem Boxed.watchExpression (id : Nat) (node : Node) : (s.watchExpression id node).2.Boxed := by
  cases hb : s.block? id with
  | none =>
    unfold Session.watchExpression
    rw [hb]
    exact h
  | some b =>
    have hI := endures_boxing true (s.watchSite id b).block
    have hwatch : Spares (Session.Boxing true) (s.watchSite id b) (lowerWatch node) := by
      refine .andThen .pc fun entry => .andThen (.expression node hI) fun _ => .andThen ?_ fun name => ?_
      · refine .withSession fun _ _ => .andThen (.modifySession fun t ht => ?_) fun _ => .pure trivial
        exact ht.ofBlocks rfl rfl rfl (Nat.le_refl _)
      · refine .andThen (.allocateStack rfl) fun r => .andThen (.getSymbol r) fun x => ?_
        exact .andThen (.emitSilent hI rfl _) fun _ => .andThen (.emit hI rfl _) fun _ => .pure trivial
    have hstart : Session.Boxing true { s with isWatching := true } := ⟨rfl, h.ofBlocks rfl rfl (Nat.le_refl _)⟩
    have hend := (hwatch { session := { s with isWatching := true } } hstart).1.boxed
    rw [watchExpression_eq hb]
    cases hrun : lowerWatch node _ _ <;> rw [hrun] at hend <;> exact hend.ofBlocks rfl rfl (Nat.le_refl _)

theorem Boxed.importSymbol (name : String) (type : Ty) (library : String) :
    (s.importSymbol name type library).2.Boxed := by
  have hstart : (if s.blocks.isEmpty then s.addBlock .global .associative none else s).Boxed := by
    split
    · exact h.addBlock _ _ _
    · exact h
  unfold Session.importSymbol
  generalize (if s.blocks.isEmpty then s.addBlock .global .associative none else s) = t at hstart ⊢
  have hcounted (globals : Nat) : Boxed { t with counters := { t.counters with globals } } :=
    hstart.ofBlocks rfl rfl (Nat.le_refl _)
  refine (hcounted _).modifyBlock fun b _ => .enter (fun box hbox => ?_) b
  cases hbox.region

end

variable {W : SymbolRef → Prop} {R : Nat → Prop}

theorem Reached.boxed (h : s.Reached) : s.Boxed := by
  obtain ⟨options, h⟩ := h
  induction h using Leads.induct with
  | refl => exact boxed_new options
  | setFile t file ih => exact ih.ofBlocks rfl rfl (Nat.le_refl _)
  | setParsingModule t on ih => exact ih.ofBlocks rfl rfl (Nat.le_refl _)
  | importSymbol t name type library _ ih => exact ih.importSymbol name type library
  | addClass t c classes _ _ ih => exact ih.ofBlocks rfl rfl (Nat.le_refl _)
  | addMethod t cls p _ ih => exact ih.register (.inClass cls) p
  | addProcedure t p _ ih => exact ih.register .global p
  | compile t unit dialect _ _ ih => exact ih.compile unit dialect
  | watchExpression t id b node _ _ _ ih => exact ih.watchExpression id node

/-! ## Boxes of variables and of members -/

/-- The box is made in a single place, right behind the move of the size. -/
def BoxedOnce (s : Session) (size box : Nat) : Prop :=
  ∃ id pc, s.BoxedAt size box id pc ∧
    ∀ id' pc', s.instruction? id' pc' = some (allocation box) → id' = id ∧ pc' = pc + 1

theorem Boxed.boxedOnce (h : s.Boxed) {id k box : Nat} {b : Block} {x : Symbol} (hb : s.block? id = some b)
    (hx : b.symbols.get? k = some x) (hbox : x.HasBox box) : s.BoxedOnce x.size box := by
  obtain ⟨j, pc, hat⟩ := h.made id b k x box hb hx hbox
  exact ⟨j, pc, hat, fun id' pc' hi => h.once box id' pc' j (pc + 1) hi hat.allocation⟩

/-- What has a box of its own is on the heap. -/
theorem Owns.isBoxed {box : Nat} (h : s.Owns box) (R : Nat → Prop) :
    ∃ id k x, s.IsBoxed R ⟨.block id, k⟩ x ∧ x.heapIndex = some box := by
  obtain ⟨id, b, k, x, hb, hx, hbox⟩ := h
  have hsymbol : s.symbol? ⟨.block id, k⟩ = some x := by
    rw [symbol?_block, header?_of_block? hb]
    exact hx
  exact ⟨id, k, x, ⟨hsymbol, hbox.region, fun _ _ => hbox.isMember, nofun⟩, hbox.heapIndex⟩

/-- Whatever is on the heap has a heap index. The box of a variable is made once, right behind the move of its
size. Boxes are made for nothing but variables: no code makes the box of a member, and none is made while
the value of an expression is watched. -/
theorem Traced.boxes_variables (h : Traced W R s) :
    (∀ a x, s.IsBoxed R a x → ∃ box, x.heapIndex = some box ∧
      ((∃ id, a.owner = .block id) → s.BoxedOnce x.size box) ∧
      ((∃ cls, a.owner = .cls cls) → ∀ id pc, s.instruction? id pc ≠ some (allocation box))) ∧
    (∀ id pc i, s.instruction? id pc = some i → i.opcode.isAlloc = true →
      ∃ box j k x, i = allocation box ∧ s.IsBoxed R ⟨.block j, k⟩ x ∧ x.heapIndex = some box) ∧
    ∀ i ∈ s.watch, i.opcode.isAlloc = false := by
  have hboxed := h.reached.boxed
  have hspread := h.balanced.shared.boxes
  refine ⟨fun a x hx => ?_, fun id pc i hi halloc => ?_, hboxed.watch⟩
  · obtain ⟨box, -, hbox⟩ := hspread.inside a x hx
    refine ⟨box, hbox, fun hvariable => ?_, fun hmember id pc hi => ?_⟩
    · obtain ⟨hsymbol, hregion, hblock, -⟩ := hx
      obtain ⟨owner, k⟩ := a
      obtain ⟨id, rfl⟩ := hvariable
      rw [symbol?_block] at hsymbol
      obtain ⟨hd, hheader, hsymbol⟩ := Option.bind_eq_some_iff.mp hsymbol
      obtain ⟨b, hb, rfl⟩ := header?_eq_some.mp hheader
      exact hboxed.boxedOnce hb hsymbol ⟨hblock id rfl, hregion, hbox⟩
    · -- The box would belong to a variable of a block, which has another one.
      obtain ⟨cls, hcls⟩ := hmember
      obtain ⟨box', hsame, -, howns⟩ := hboxed.owned id pc _ hi rfl
      cases hsame
      obtain ⟨j, k, y, hy, hindex⟩ := howns.isBoxed R
      have hplace : a = ⟨.block j, k⟩ := hspread.apart a _ x y hx hy (hbox.trans hindex.symm)
      rw [hplace] at hcls
      cases hcls
  · obtain ⟨box, hi, -, howns⟩ := hboxed.owned id pc i hi halloc
    obtain ⟨j, k, x, hx, hindex⟩ := howns.isBoxed R
    exact ⟨box, j, k, x, hi, hx, hindex⟩

/-- A variable of the name on the heap. -/
def onHeap (name : String) (isStatic : Bool) : Variable :=
  { name, type := .var, value := none, isStatic, access := .isPublic, region := .heap, span := .nil }

/-- A class with a static member on the heap. -/
def heapClass : Node :=
  .classDecl { name := "C", base := none, members := [onHeap "n" true], methods := [], attributes := [], span := .nil }

/-- Behind the class, the variable of a function gets the next box, which is made once. -/
theorem function_variable_boxed_once :
    let s := ((new {}).compile [heapClass, .function (generated "f" [] [.varDecl (onHeap "y" false)])] .associative).2
    s.Traced (fun _ => False) (fun _ => False) ∧
      ∃ a x, s.IsBoxed (fun _ => False) a x ∧ x.name = "y" ∧ x.heapIndex = some 1 ∧ s.BoxedOnce x.size 1 := by
  intro s
  have hused : (new {}).Used := .new {}
  have hs : s.Traced (fun _ => False) (fun _ => False) :=
    .compile _ .associative (hused.fit.compile_safe _ _).1 (.new {})
  have hfacts : (s.symbol? ⟨.block 2, 0⟩).map (fun x => (x.name, x.region, x.isMember, x.heapIndex)) =
      some ("y", .heap, false, some 1) := by decide +kernel
  obtain ⟨x, hx, heq⟩ := Option.map_eq_some_iff.mp hfacts
  simp only [Prod.mk.injEq] at heq
  obtain ⟨hname, hregion, hmember, hindex⟩ := heq
  have hboxed : s.IsBoxed (fun _ => False) ⟨.block 2, 0⟩ x := ⟨hx, hregion, fun _ _ => hmember, nofun⟩
  obtain ⟨box, hbox, honce, -⟩ := hs.boxes_variables.1 _ x hboxed
  cases hindex.symm.trans hbox
  exact ⟨hs, _, x, hboxed, hname, hindex, honce ⟨2, rfl⟩⟩

/-- The static member of a class that is compiled is on the heap and has the first box, which no code makes. -/
theorem heap_member_lacks_box :
    let r := (new {}).compile [heapClass] .associative
    let s := r.2
    r.1.toBool = true ∧
      (∃ x, s.IsBoxed (fun _ => False) ⟨.cls 12, 0⟩ x ∧ x.isStatic = true ∧ x.heapIndex = some 0) ∧
      ∀ id pc i, s.instruction? id pc = some i → i.opcode ≠ .alloc := by
  intro r s
  refine ⟨by decide +kernel, ?_, fun id pc i hi halloc => ?_⟩
  · have hfacts : (s.symbol? ⟨.cls 12, 0⟩).map (fun x => (x.isStatic, x.region, x.heapIndex)) =
        some (true, .heap, some 0) := by decide +kernel
    obtain ⟨x, hx, heq⟩ := Option.map_eq_some_iff.mp hfacts
    simp only [Prod.mk.injEq] at heq
    obtain ⟨hstatic, hregion, hindex⟩ := heq
    exact ⟨x, ⟨hx, hregion, nofun, fun _ _ => id⟩, hstatic, hindex⟩
  · have hall : s.blocks.toList.all (fun b => b.code.toList.all fun i => !i.opcode.isAlloc) = true := by
      decide +kernel
    rw [instruction?_eq] at hi
    obtain ⟨b, hb, hi⟩ := Option.bind_eq_some_iff.mp hi
    have hcode := List.all_eq_true.mp hall b (Array.mem_toList_iff.mpr (Array.mem_of_getElem? hb))
    have hop := List.all_eq_true.mp hcode i (Array.mem_toList_iff.mpr (Array.mem_of_getElem? hi))
    rw [halloc] at hop
    cases hop

end Session

end Diglot
