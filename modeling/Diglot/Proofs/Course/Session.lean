import Diglot.Proofs.Requests
import Diglot.Proofs.Course.Statement

/-! # No call ends in a defect

* `Session.Used`: the session can be reached by any calls on a new session, those included that halted.
* `Used.fit`: its tables are tidy, so that a unit or a watch expression starts in order.
* `Used.no_defect`: whatever is compiled next, the call returns a block, an entry, or a halt.
-/

set_option autoImplicit false

namespace Diglot

open Lowering

/-! ## Kinds of blocks -/

namespace Session

/-- The kind of the block of an index. -/
def kind? (s : Session) (id : Nat) : Option BlockKind := (s.block? id).map Block.kind

theorem kind?_modifyBlock {g : Block → Block} (hg : ∀ b, (g b).kind = b.kind) (s : Session)
    (id : Nat) : (s.modifyBlock id g).kind? = s.kind? := by
  funext j
  simp only [kind?, block?_modifyBlock]
  split
  · cases s.block? j with
    | none => rfl
    | some b => exact congrArg some (hg b)
  · rfl

theorem kind?_of_blocks {s t : Session} (h : t.blocks = s.blocks) : t.kind? = s.kind? := by
  funext j
  simp only [kind?, block?, h]

theorem kind?_addBlock (s : Session) (kind : BlockKind) (dialect : Dialect) (parent : Option Nat)
    (id : Nat) :
    (s.addBlock kind dialect parent).kind? id =
      if id = s.blocks.size then some kind else s.kind? id := by
  have hpush (b : Block) : ({ s with blocks := s.blocks.push b } : Session).kind? id =
      if id = s.blocks.size then some b.kind else s.kind? id := by
    simp only [kind?, block?, Array.getElem?_push]
    split <;> rfl
  cases parent with
  | none => exact hpush _
  | some p =>
    refine (congrFun (kind?_modifyBlock ?_ _ p) id).trans (hpush _)
    exact fun _ => rfl

/-- Every block keeps its kind. -/
def KeepsKinds (s t : Session) : Prop := ∀ id k, s.kind? id = some k → t.kind? id = some k

theorem keepsKinds_addBlock (s : Session) (kind : BlockKind) (dialect : Dialect)
    (parent : Option Nat) : s.KeepsKinds (s.addBlock kind dialect parent) := by
  intro id k hk
  obtain ⟨b, hb, _⟩ := Option.map_eq_some_iff.mp hk
  have hlt := (Array.getElem?_eq_some_iff.mp hb).1
  rw [kind?_addBlock, if_neg (by omega)]
  exact hk

end Session

namespace Lowering

variable {K : OpCode → Prop} {f g : Frame} {s t : Session} {close : Session → Session → Prop}

theorem Change.kind?_eq (h : Change K f s t) : t.kind? = s.kind? := by
  cases h with
  | emit i span =>
    unfold Session.emit
    split
    · rfl
    · refine (Session.kind?_modifyBlock ?_ _ f.block).trans rfl
      exact fun _ => rfl
  | patch =>
    unfold Session.replaceCode
    split
    · rfl
    · refine Session.kind?_modifyBlock ?_ _ f.block
      exact fun _ => rfl
  | declare d =>
    have hlocal (u : Session) (id : Nat) (x : Symbol) : (u.enterLocal id x).kind? = u.kind? := by
      refine Session.kind?_modifyBlock ?_ u id
      exact fun _ => rfl
    obtain ⟨cls, counters, _, _, _, _, heq⟩ | ⟨counters, _, _, heq⟩ := s.declare_cases f d
    · rw [heq]
      unfold Session.enterMember
      split
      · exact (hlocal _ 0 _).trans rfl
      · rfl
    · rw [heq]
      exact (hlocal _ f.block _).trans rfl
  | commit node =>
    refine Session.kind?_modifyBlock ?_ s node.block
    exact fun _ => rfl
  | _ => rfl

theorem Opens.keepsKinds (h : Opens f s g t close) : s.KeepsKinds t := by
  cases h with
  | block dialect =>
    have hopen : (s.openBlock f dialect).kind? =
        (s.addBlock .language dialect (some f.block)).kind? := by
      refine Session.kind?_modifyBlock ?_ _ s.blocks.size
      exact fun _ => rfl
    intro id k hk
    rw [hopen]
    exact s.keepsKinds_addBlock _ _ _ id k hk
  | procedure p message =>
    have hopen : (s.openProcedure f p message).kind? =
        ((s.register f.scope p).addBlock .function f.dialect (some f.block)).kind? := by
      refine (Session.kind?_of_blocks (Session.blocks_modifyProcedure _ _ _)).trans ?_
      refine Session.kind?_modifyBlock ?_ _ s.blocks.size
      exact fun _ => rfl
    have hregister : (s.register f.scope p).kind? = s.kind? :=
      Session.kind?_of_blocks (Session.blocks_register s f.scope p)
    intro id k hk
    rw [hopen]
    exact (s.register f.scope p).keepsKinds_addBlock _ _ _ id k (hregister ▸ hk)
  | cls c classes => exact fun _ _ hk => hk

theorem Evolves.keepsKinds (h : Evolves K f s t) : s.KeepsKinds t := by
  induction h with
  | refl => exact fun _ _ hk => hk
  | step _ hc ih => exact fun id k hk => hc.kind?_eq ▸ ih id k hk
  | inner _ ho _ hw ih ihg =>
    intro id k hk
    have hv := ihg id k (ho.keepsKinds id k (ih id k hk))
    cases ho with
    | block => exact hw ▸ hv
    | cls => exact hw ▸ hv
    | procedure =>
      obtain rfl | ⟨entry, rfl⟩ := hw
      · exact hv
      · rw [Session.kind?_of_blocks (Session.blocks_modifyProcedure _ _ _)]
        exact hv

end Lowering

/-! ## Sessions in use -/

/-- The class with tables that are filled entry by entry. -/
def Class.filled (c : Class) (symbols : List Symbol) (procedures : List Procedure) : Class :=
  { c with
    symbols := symbols.foldl SymbolTable.append {}
    procedures := procedures.foldl ProcedureTable.append {} }

theorem Class.numbered_filled (c : Class) (symbols : List Symbol) (procedures : List Procedure) :
    (c.filled symbols procedures).symbols.Numbered ∧
      (c.filled symbols procedures).procedures.Numbered := by
  have hsymbols : ∀ (l : List Symbol) (t : SymbolTable), t.Numbered →
      (l.foldl SymbolTable.append t).Numbered := by
    intro l
    induction l with
    | nil => exact fun _ ht => ht
    | cons x rest ih => exact fun t ht => ih _ (ht.append x)
  have hprocedures : ∀ (l : List Procedure) (t : ProcedureTable), t.Numbered →
      (l.foldl ProcedureTable.append t).Numbered := by
    intro l
    induction l with
    | nil => exact fun _ ht => ht
    | cons p rest ih => exact fun t ht => ih _ (ht.append p)
  exact ⟨hsymbols symbols {} SymbolTable.numbered_empty,
    hprocedures procedures {} ProcedureTable.numbered_empty⟩

namespace Session

/-- A class that is registered brings tables that were filled entry by entry, and its base class is
registered before. -/
def Regular (s : Session) : Request → Prop
  | .addClass c => ∃ (d : Class) (symbols : List Symbol) (procedures : List Procedure),
      c = d.filled symbols procedures ∧ ∀ b, d.base = some b → b < s.classes.size
  | _ => True

/-- Further regular calls lead to `t`, whatever they returned. -/
def Later (s t : Session) : Prop := s.Leads Regular t

/-- The session can be reached by regular calls on a new session, whatever they returned. -/
def Used (s : Session) : Prop := s.Past Regular

section

variable {s t : Session}

theorem Later.used (h : s.Later t) (hs : s.Used) : t.Used := by
  obtain ⟨options, hleads⟩ := hs
  exact ⟨options, hleads.trans h⟩

theorem Later.compile (unit : List Node) (dialect : Dialect) (h : s.Later t) :
    s.Later (t.compile unit dialect).2 := h.call (.compile unit dialect) trivial

theorem Used.importSymbol (name : String) (type : Ty) (library : String) (h : s.Used) :
    (s.importSymbol name type library).2.Used := h.call (.importSymbol name type library) trivial

theorem Used.addClass (c : Class) (symbols : List Symbol) (procedures : List Procedure)
    (hbase : ∀ b, c.base = some b → b < s.classes.size) (h : s.Used) :
    (s.addClass (c.filled symbols procedures)).2.Used :=
  h.call (.addClass _) ⟨c, symbols, procedures, rfl, hbase⟩

theorem Used.compile (unit : List Node) (dialect : Dialect) (h : s.Used) :
    (s.compile unit dialect).2.Used := h.call (.compile unit dialect) trivial

theorem Used.watchExpression (id : Nat) (node : Node) (h : s.Used) :
    (s.watchExpression id node).2.Used := h.call (.watchExpression id node) trivial

end

/-- The session can take a call: its tables are tidy, and the first block, which is there once a unit
has been compiled, is a global one. -/
structure Fit (s : Session) : Prop where
  tidy : s.Tidy
  filled : s.counters.units ≠ 0 → 0 < s.blocks.size
  first : ∀ k, s.kind? 0 = some k → k = .global

theorem Fit.congr {s t : Session} (h : s.Fit) (hc : t.classes = s.classes)
    (hp : t.procedures = s.procedures) (hb : t.blocks = s.blocks)
    (hu : t.counters.units = s.counters.units) : t.Fit := by
  have hh : t.header? = s.header? := by
    funext id
    simp only [header?, block?, hb]
  refine ⟨h.tidy.congr hc hp hh, ?_, ?_⟩
  · rw [hb, hu]
    exact h.filled
  · rw [kind?_of_blocks hb]
    exact h.first

theorem fit_new (options : Options) : (new options).Fit := by
  have hheader (id : Nat) : (new options).header? id = none := rfl
  refine ⟨⟨coherent_new options, fun id hd p hs => ?_, ProcedureTable.numbered_empty, ?_⟩,
    fun hunits => absurd rfl hunits, fun k hk => ?_⟩
  · rw [hheader] at hs
    cases hs
  · intro cls c hc
    have hmem : c ∈ (Primitive.all.map fun p => ({ name := p.name, isPrimitive := true } : Class)) :=
      List.mem_toArray.mp (Array.mem_of_getElem? hc)
    obtain ⟨p, _, rfl⟩ := List.mem_map.mp hmem
    exact ⟨ProcedureTable.numbered_empty, fun _ hb => by cases hb⟩
  · cases hk

/-- The first block has no parent. -/
theorem Fit.addFirst {s : Session} (h : s.Fit) (dialect : Dialect) (hempty : s.blocks.size = 0) :
    (s.addBlock .global dialect none).Fit := by
  refine ⟨⟨h.tidy.coherent.addFirst _ _, fun id hd p hs hp => ?_, h.tidy.procedures, h.tidy.classes⟩,
    fun _ => ?_, fun k hk => ?_⟩
  · rw [header?_addBlock] at hs
    split at hs
    · cases hs
      cases hp
    · exact h.tidy.parents id hd p hs hp
  · rw [size_blocks_addBlock]
    omega
  · rw [kind?_addBlock, hempty, if_pos rfl] at hk
    exact (Option.some.inj hk).symm

theorem Fit.importSymbol {s : Session} (h : s.Fit) (name : String) (type : Ty) (library : String) :
    (s.importSymbol name type library).2.Fit := by
  have hcoherent := h.tidy.coherent.importSymbol name type library
  have hstart : (if s.blocks.isEmpty then s.addBlock .global .associative none else s).Fit := by
    split
    · next hempty => exact h.addFirst _ (Array.isEmpty_iff_size_eq_zero.mp hempty)
    · exact h
  unfold Session.importSymbol at hcoherent ⊢
  generalize (if s.blocks.isEmpty then s.addBlock .global .associative none else s) = t
    at hstart hcoherent ⊢
  refine ⟨⟨hcoherent, ?_, hstart.tidy.procedures, hstart.tidy.classes⟩, fun hunits => ?_, ?_⟩
  · exact parents_enterLocal (s := { t with counters := _ }) hstart.tidy.parents 0 _
  · have := hstart.filled hunits
    simpa [size_blocks_modifyBlock] using this
  · dsimp only
    rw [kind?_modifyBlock]
    · exact hstart.first
    · exact fun _ => rfl

/-! ## Compiling a unit -/

theorem Fit.openUnit {s : Session} (h : s.Fit) (dialect : Dialect) :
    (s.openUnit dialect).2.Fit ∧ (s.openUnit dialect).1 < (s.openUnit dialect).2.blocks.size ∧
      (s.openUnit dialect).2.kind? (s.openUnit dialect).1 = some .global := by
  unfold Session.openUnit
  split
  · split
    · next hempty =>
      have hzero := Array.isEmpty_iff_size_eq_zero.mp hempty
      refine ⟨h.addFirst dialect hzero, ?_, ?_⟩
      · rw [size_blocks_addBlock]
        omega
      · rw [kind?_addBlock, hzero, if_pos rfl]
    · next hempty =>
      have hsize : 0 < s.blocks.size := by
        refine Nat.pos_of_ne_zero fun hzero => hempty ?_
        exact Array.isEmpty_iff_size_eq_zero.mpr hzero
      have hheader := header?_modifyBlock (g := fun b => { b with dialect }) (fun _ => rfl) s 0
      have hkind := kind?_modifyBlock (g := fun b => { b with dialect }) (fun _ => rfl) s 0
      refine ⟨⟨h.tidy.congr rfl rfl hheader, ?_, ?_⟩, ?_, ?_⟩
      · exact fun _ => by simpa [size_blocks_modifyBlock] using hsize
      · rw [hkind]
        exact h.first
      · simpa [size_blocks_modifyBlock] using hsize
      · dsimp only
        rw [hkind]
        have hb : s.kind? 0 = some s.blocks[0].kind := by
          simp [kind?, block?, hsize]
        rw [hb, h.first _ hb]
  · next hunits =>
    have hsize := h.filled hunits
    have hcoherent := h.tidy.coherent.withUnit (.inr (rfl : some 0 = some 0))
      (header?_addBlock s .global dialect (some 0)) rfl rfl
    refine ⟨⟨⟨hcoherent, ?_, h.tidy.procedures, h.tidy.classes⟩, fun _ => ?_, fun k hk => ?_⟩, ?_, ?_⟩
    · exact parents_of_new h.tidy.parents hsize (header?_addBlock s .global dialect (some 0))
    · rw [size_blocks_addBlock]
      omega
    · rw [kind?_addBlock, if_neg (by omega)] at hk
      exact h.first k hk
    · rw [size_blocks_addBlock]
      omega
    · rw [kind?_addBlock, if_pos rfl]

theorem isWatching_unitStart (s : Session) (dialect : Dialect) :
    (s.unitStart dialect).2.isWatching = false := by
  change (Session.openUnit _ dialect).2.isWatching = false
  unfold Session.openUnit
  split
  · split <;> rfl
  · rfl

/-- A unit starts in order. -/
theorem Fit.unitStart {s : Session} (h : s.Fit) (unit : List Node) (dialect : Dialect) :
    let f := unitFrame (s.unitStart dialect).1 .global dialect unit
    Ready false f { session := (s.unitStart dialect).2 } ∧ Seated f (s.unitStart dialect).2 := by
  have hquiet : { s with isWatching := false }.Fit := h.congr rfl rfl rfl rfl
  obtain ⟨hfit, hsize, hkind⟩ := hquiet.openUnit dialect
  obtain ⟨_, hplaced⟩ := coherent_unitStart h.tidy.coherent dialect
  have hmode := s.isWatching_unitStart dialect
  have htidy : (s.unitStart dialect).2.Tidy := hfit.tidy.congr rfl rfl rfl
  have hready : Ready false (s.unitSite dialect) { session := (s.unitStart dialect).2 } :=
    ⟨htidy, ⟨hplaced, fun _ _ hcls => by cases hcls⟩,
      neat_start (Nat.lt_of_le_of_lt (Nat.zero_le _) hsize), hmode⟩
  refine ⟨hready.site rfl, hmode, ?_, fun b hb => by cases hb⟩
  obtain ⟨b, hb, hb'⟩ := Option.map_eq_some_iff.mp hkind
  have hblock : (s.unitStart dialect).2.block? (s.unitStart dialect).1 = some b := hb
  refine ⟨.global, b.code, ?_, rfl⟩
  change ((s.unitStart dialect).2.block? (s.unitStart dialect).1).map _ = _
  rw [hblock, Option.map_some, hb']

theorem Fit.compile_safe {s : Session} (h : s.Fit) (unit : List Node) (dialect : Dialect) :
    (∀ d, (s.compile unit dialect).1 ≠ .error (.defect d)) ∧ (s.compile unit dialect).2.Tidy := by
  obtain ⟨hready, hseated⟩ := h.unitStart unit dialect
  have hcourse : Course True Anything (unitFrame (s.unitStart dialect).1 .global dialect unit)
      { session := (s.unitStart dialect).2 } (lowerCode unit) :=
    .lowerCode (fun n _ => steady n) (fun _ => hready) fun _ => hseated
  have hsafe := hcourse.safe trivial hready
  rw [compile_eq]
  revert hsafe
  rcases lowerCode unit _ _ with ⟨_, t⟩ | ⟨_ | _, t⟩
  · exact fun ht => ⟨nofun, ht.1.tidy⟩
  · exact fun ht => ⟨nofun, ht⟩
  · exact False.elim

theorem Fit.compile {s : Session} (h : s.Fit) (unit : List Node) (dialect : Dialect) :
    (s.compile unit dialect).2.Fit := by
  obtain ⟨hdefect, htidy⟩ := h.compile_safe unit dialect
  have hevolves := compile_evolves hdefect
  have hquiet : { s with isWatching := false }.Fit := h.congr rfl rfl rfl rfl
  obtain ⟨hfit, hsize, _⟩ := hquiet.openUnit dialect
  have hpos : 0 < (s.unitStart dialect).2.blocks.size := Nat.lt_of_le_of_lt (Nat.zero_le _) hsize
  have hzero : (s.unitStart dialect).2.kind? 0 = some .global := by
    have hb : (s.unitStart dialect).2.kind? 0 = some (s.unitStart dialect).2.blocks[0].kind := by
      simp [kind?, block?, hpos]
    rw [hb]
    exact congrArg some (hfit.first _ hb)
  have hkeep := hevolves.keepsKinds 0 _ hzero
  refine ⟨htidy, fun _ => ?_, fun k hk => ?_⟩
  · obtain ⟨b, hb, _⟩ := Option.map_eq_some_iff.mp hkeep
    exact (Array.getElem?_eq_some_iff.mp hb).1
  · rw [hkeep] at hk
    exact (Option.some.inj hk).symm

/-! ## Compiling a watch expression -/

theorem Fit.watchStart {s : Session} (h : s.Fit) {id : Nat} {b : Block} (hb : s.block? id = some b) :
    Ready true (s.watchSite id b) { session := { s with isWatching := true } } := by
  obtain ⟨_, hplaced⟩ := coherent_watchStart h.tidy.coherent hb
  have hsize := (Array.getElem?_eq_some_iff.mp hb).1
  refine ⟨h.tidy.congr rfl rfl rfl, ⟨hplaced, fun hproc cls hcls => ?_⟩,
    neat_start (s := { s with isWatching := true }) (Nat.lt_of_le_of_lt (Nat.zero_le _) hsize), rfl⟩
  unfold watchSite scopeOf at hproc hcls
  cases hp : b.procedure with
  | none =>
    rw [hp] at hcls
    cases hcls
  | some r =>
    rw [hp] at hproc
    cases hproc

theorem Fit.watch_safe {s : Session} (h : s.Fit) (id : Nat) (node : Node) :
    (∀ d, (s.watchExpression id node).1 ≠ .error (.defect d)) ∧
      (s.watchExpression id node).2.Tidy := by
  cases hb : s.block? id with
  | none =>
    unfold Session.watchExpression
    rw [hb]
    exact ⟨nofun, h.tidy⟩
  | some b =>
    have hready := h.watchStart hb
    have hcourse := Composed.lowerWatch (w := true) (D := True) (P := Anything) node
      (fun _ _ => trivial) _ _ fun _ => hready
    have hsafe := hcourse.safe trivial hready
    rw [watchExpression_eq hb]
    revert hsafe
    rcases lowerWatch node _ _ with ⟨_, t⟩ | ⟨_ | _, t⟩
    · exact fun ht => ⟨nofun, ht.1.tidy.congr rfl rfl rfl⟩
    · exact fun ht => ⟨nofun, Tidy.congr ht rfl rfl rfl⟩
    · exact False.elim

theorem Fit.watchExpression {s : Session} (h : s.Fit) (id : Nat) (node : Node) :
    (s.watchExpression id node).2.Fit := by
  obtain ⟨hdefect, htidy⟩ := h.watch_safe id node
  cases hb : s.block? id with
  | none =>
    unfold Session.watchExpression
    rw [hb]
    exact h
  | some b =>
    obtain ⟨t, ht, heq⟩ := watch_evolves hb hdefect
    have hpos : 0 < s.blocks.size :=
      Nat.lt_of_le_of_lt (Nat.zero_le _) (Array.getElem?_eq_some_iff.mp hb).1
    have hzero : s.kind? 0 = some .global := by
      have hfirst : s.kind? 0 = some s.blocks[0].kind := by simp [kind?, block?, hpos]
      rw [hfirst, h.first _ hfirst]
    have hkeep : t.kind? 0 = some .global := ht.keepsKinds 0 _ hzero
    refine ⟨htidy, fun _ => ?_, fun k hk => ?_⟩ <;> rw [heq] at *
    · obtain ⟨c, hc, _⟩ := Option.map_eq_some_iff.mp hkeep
      exact (Array.getElem?_eq_some_iff.mp hc).1
    · have hk' : t.kind? 0 = some k := hk
      rw [hkeep] at hk'
      exact (Option.some.inj hk').symm

/-! ## All calls -/

theorem Used.fit {s : Session} (h : s.Used) : s.Fit := by
  obtain ⟨options, h⟩ := h
  induction h using Leads.induct with
  | refl => exact fit_new options
  | setFile t file ih => exact ih.congr rfl rfl rfl rfl
  | setParsingModule t on ih => exact ih.congr rfl rfl rfl rfl
  | importSymbol t name type library _ ih => exact ih.importSymbol name type library
  | addClass t _ classes happend hregular ih =>
    obtain ⟨c, symbols, procedures, rfl, hbase⟩ := hregular
    obtain ⟨hsymbols, hprocedures⟩ := c.numbered_filled symbols procedures
    exact ⟨ih.tidy.appendClass hsymbols ⟨hprocedures, hbase⟩ happend, ih.filled, ih.first⟩
  | addMethod t cls p _ ih => exact ⟨ih.tidy.register (.inClass cls) p, ih.filled, ih.first⟩
  | addProcedure t p _ ih => exact ⟨ih.tidy.register .global p, ih.filled, ih.first⟩
  | compile t unit dialect _ _ ih => exact ih.compile unit dialect
  | watchExpression t id b node _ _ _ ih => exact ih.watchExpression id node

theorem symbol?_importSymbol (s : Session) (name : String) (type : Ty) (library : String) :
    ∃ x, x.name = name ∧ (s.importSymbol name type library).2.symbol?
      ⟨.block 0, (s.importSymbol name type library).1⟩ = some x := by
  have hfirst : ∃ b, (if s.blocks.isEmpty then s.addBlock .global .associative none else s).block? 0 =
      some b := by
    split
    · next hempty =>
      have hzero : s.blocks = #[] := Array.isEmpty_iff.mp hempty
      exact ⟨_, by simp [addBlock, block?, hzero]; rfl⟩
    · next hempty =>
      have hsize : s.blocks.size ≠ 0 := fun h => hempty (Array.isEmpty_iff_size_eq_zero.mpr h)
      exact ⟨_, Array.getElem?_eq_getElem (by omega)⟩
  obtain ⟨b, hb⟩ := hfirst
  unfold Session.importSymbol
  generalize (if s.blocks.isEmpty then s.addBlock .global .associative none else s) = t at hb ⊢
  let x : Symbol := { name, type, library := some library, offset := t.counters.globals }
  refine ⟨{ x with position := b.symbols.size }, rfl, ?_⟩
  have hcounters (counters : Counters) : ({ t with counters } : Session).block? 0 = some b := hb
  simp only [symbol?, block?_modifyBlock, hcounters, if_true, Option.map_some, Option.getD_some,
    Option.bind_some]
  exact SymbolTable.get?_append_size b.symbols x

/-- No call ends in a defect: compiling returns a block or an entry, halts, or finds no block. What is
imported is entered into the first block, and every walk along base classes ends. -/
theorem Used.no_defect {s : Session} (h : s.Used) :
    (∀ unit dialect d, (s.compile unit dialect).1 ≠ .error (.defect d)) ∧
      (∀ id node d, (s.watchExpression id node).1 ≠ .error (.defect d)) ∧
      (∀ name type library, ∃ x, x.name = name ∧
        (s.importSymbol name type library).2.symbol?
          ⟨.block 0, (s.importSymbol name type library).1⟩ = some x) ∧
      ∀ cls, ∃ last, (s.classes.lineage cls).getLast? = some last ∧
        (s.classes.get? last).bind Class.base = none := by
  refine ⟨fun unit dialect => (h.fit.compile_safe unit dialect).1,
    fun id node => (h.fit.watch_safe id node).1, fun name type library => ?_,
    h.fit.tidy.lineage_ends⟩
  exact s.symbol?_importSymbol name type library

/-- A unit halts in the body of a function, a symbol is imported, and a class is registered behind its
base class; then anything can be compiled. -/
theorem halted_no_defect :
    let s := (((new {}).compile [.function (generated "f" [] [.breakLoop .nil])] .imperative).2
      |>.importSymbol "x" .var "lib").2
    let t := (s.addClass (Class.filled { name := "C", base := some 3 } [] [])).2
    t.Used ∧ t.diagnostics.size = 1 ∧ t.blocks.size = 2 ∧ t.classes.size = 13 ∧
      ∀ unit dialect d, (t.compile unit dialect).1 ≠ .error (.defect d) := by
  intro s t
  have hs : s.Used := .importSymbol "x" .var "lib" (.compile _ .imperative (.new {}))
  have ht : t.Used := by
    refine .addClass _ [] [] (fun b hb => ?_) hs
    cases hb
    decide +kernel
  exact ⟨ht, by decide +kernel, by decide +kernel, by decide +kernel, ht.no_defect.1⟩

end Session

end Diglot
