import Diglot.Proofs.Access.Members
import Diglot.Proofs.Variables.Initial

/-! # Stores tell their variables apart

A store names the block that a variable was declared in, its kind, its position and the class in whose scope it
was declared. Nothing of this is the table that holds the variable. But in a session all of whose classes are
declared by units, what a symbol says of itself tells its table (`Housed`, `Symbol.home`): a local or global
variable stands in the block that it names, an instance member in the class that it names, and a static member is
found by its entry in the first block only. So no two variables are stored by the same instructions
(`stores_unambiguous`).

A class that is registered from outside brings any table along; its members need not say where they stand.
-/

set_option autoImplicit false

namespace Diglot

open Lowering

/-! ## Where a symbol says that it stands -/

/-- The table and the position that follow from what a symbol says of itself. -/
def Symbol.home (x : Symbol) : SymbolRef :=
  if x.isMember && !x.isStatic then ⟨.cls (x.classScope.getD 0), x.position⟩
  else ⟨.block x.block, x.position⟩

namespace Session

variable {s t : Session} {x : Symbol} {id cls : Nat}

/-- The symbols of a block name it, and so do the members of a class. A static member has an entry in the first
block. -/
structure Housed (s : Session) : Prop where
  blocks : ∀ id, ∀ x ∈ s.symbolsOf (.block id), x.block = id
  members : ∀ cls, ∀ x ∈ s.symbolsOf (.cls cls), x.classScope = some cls ∧ x.function = none
  entries : ∀ cls, ∀ x ∈ s.symbolsOf (.cls cls), x.isStatic = true →
    ∃ y ∈ s.symbolsOf (.block 0), y.name = x.name ∧ y.isStaticIn cls = true

theorem Housed.congr (h : s.Housed) (hsymbol : t.symbol? = s.symbol?) : t.Housed := by
  have htables := symbolsOf_congr hsymbol
  refine ⟨?_, ?_, ?_⟩ <;> rw [htables]
  · exact h.blocks
  · exact h.members
  · exact h.entries

theorem mem_symbolsOf {o : Owner} {i : Nat} (h : s.symbol? ⟨o, i⟩ = some x) : x ∈ s.symbolsOf o :=
  List.mem_of_getElem? ((s.getElem?_symbolsOf o i).trans h)

/-- Whatever stands in the table of a block stood there before, or has been entered. -/
theorem mem_enterLocal {y : Symbol} {o : Owner} (hid : (s.header? id).isSome) :
    y ∈ (s.enterLocal id x).symbolsOf o →
      y ∈ s.symbolsOf o ∨ o = .block id ∧ ∃ n, y = { x with position := n } := by
  obtain ⟨n, hn⟩ := symbolsOf_enterLocal x hid o
  rw [hn, List.mem_append]
  rintro (hy | hy)
  · exact .inl hy
  · split at hy
    · next heq => exact .inr ⟨heq, n, List.mem_singleton.mp hy⟩
    · cases hy

theorem symbolsOf_subset_enterLocal (hid : (s.header? id).isSome) (o : Owner) :
    s.symbolsOf o ⊆ (s.enterLocal id x).symbolsOf o := by
  obtain ⟨n, hn⟩ := symbolsOf_enterLocal x hid o
  rw [hn]
  exact List.subset_append_left ..

theorem entered_mem_enterLocal (hid : (s.header? id).isSome) :
    ∃ n, { x with position := n } ∈ (s.enterLocal id x).symbolsOf (.block id) := by
  obtain ⟨n, hn⟩ := symbolsOf_enterLocal x hid (.block id)
  refine ⟨n, ?_⟩
  rw [hn, if_pos rfl]
  exact List.mem_append_right _ (List.mem_singleton_self _)

theorem Housed.enterLocal (h : s.Housed) (hid : (s.header? id).isSome) (hx : x.block = id) :
    (s.enterLocal id x).Housed := by
  refine ⟨fun other y hy => ?_, h.members, fun cls y hy hstatic => ?_⟩
  · rcases mem_enterLocal hid hy with hy | ⟨heq, n, rfl⟩
    · exact h.blocks other y hy
    · exact hx.trans (Owner.block.inj heq).symm
  · obtain ⟨z, hz, hentry⟩ := h.entries cls y hy hstatic
    exact ⟨z, symbolsOf_subset_enterLocal hid _ hz, hentry⟩

/-- A member goes into its class, where its entry is made. -/
theorem Housed.appendSymbol (h : s.Housed) (hcls : (s.classes.get? cls).isSome)
    (hscope : x.classScope = some cls) (hfunction : x.function = none)
    (hentry : x.isStatic = true →
      ∃ y ∈ s.symbolsOf (.block 0), y.name = x.name ∧ y.isStaticIn cls = true) :
    Housed { s with classes := s.classes.appendSymbol cls x } := by
  have hmem {other : Nat} {y : Symbol}
      (hy : y ∈ ({ s with classes := s.classes.appendSymbol cls x } : Session).symbolsOf (.cls other)) :
      y ∈ s.symbolsOf (.cls other) ∨ other = cls ∧ ∃ n, y = { x with position := n } := by
    obtain ⟨n, hn⟩ := symbolsOf_appendSymbol x hcls (.cls other)
    rw [hn] at hy
    rcases List.mem_append.mp hy with hy | hy
    · exact .inl hy
    · split at hy
      · next heq => exact .inr ⟨Owner.cls.inj heq, n, List.mem_singleton.mp hy⟩
      · cases hy
  refine ⟨h.blocks, fun other y hy => ?_, fun other y hy hstatic => ?_⟩
  · rcases hmem hy with hy | ⟨rfl, n, rfl⟩
    · exact h.members other y hy
    · exact ⟨hscope, hfunction⟩
  · rcases hmem hy with hy | ⟨rfl, n, rfl⟩
    · exact h.entries other y hy hstatic
    · exact hentry hstatic

/-- A static member is entered into the first block as well. -/
theorem Housed.enterMember (h : s.Housed) (hcls : (s.classes.get? cls).isSome)
    (hfirst : x.isStatic = true → (s.header? 0).isSome) (hscope : x.classScope = some cls)
    (hfunction : x.function = none) : (s.enterMember cls x).Housed := by
  unfold Session.enterMember
  dsimp only
  split
  · next hstatic =>
    have hheader := hfirst hstatic
    obtain ⟨n, hn⟩ := entered_mem_enterLocal (x := { x with block := 0 }) hheader
    refine (h.enterLocal (x := { x with block := 0 }) hheader rfl).appendSymbol hcls hscope hfunction
      fun _ => ⟨_, hn, rfl, ?_⟩
    simp [Symbol.isStaticIn, hstatic, hscope]
  · next hstatic =>
    exact h.appendSymbol hcls hscope hfunction fun h => absurd h hstatic

end Session

/-! ## Lowering keeps the symbols in their tables -/

namespace Lowering

variable {K : OpCode → Prop} {f g : Frame} {s t u v : Session} {close : Session → Session → Prop}

theorem housed_declare (h : s.Housed) {d : Declaration} (hcan : s.CanDeclare f d) :
    (s.declare f d).Housed := by
  have hcounters (counters : Counters) : ({ s with counters } : Session).Housed := h.congr rfl
  obtain ⟨cls, counters, hw, hproc, hscope, hcls, heq⟩ | ⟨counters, _, hblock, heq⟩ := s.declare_cases f d
  · have hfirst : d.isStatic = true → (s.header? 0).isSome := by
      intro hstatic
      unfold Session.CanDeclare at hcan
      simp only [bucketOf, hw, hproc, hscope, Scope.function, hstatic] at hcan
      rw [Session.header?_isSome]
      exact hcan.2 trivial
    have hfunction : (s.declared f d).function = none := by
      change f.scope.function = none
      rw [Scope.function, hproc]
      rfl
    rw [heq]
    exact (hcounters counters).enterMember (hcls hcan) hfirst hscope hfunction
  · rw [heq]
    refine (hcounters counters).enterLocal ?_ rfl
    exact (Session.header?_isSome s f.block).trans (hblock hcan)

theorem invariant_housed : Invariant fun _ s => s.Housed where
  change h hc := by
    rcases hc.sameNames_or_canDeclare with hsame | ⟨d, hcan, rfl⟩
    · exact h.congr (Session.symbol?_of_tables hsame.classes hsame.headers)
    · exact housed_declare h hcan
  opens h ho := h.congr ho.symbol?_eq
  closes _ ho _ hu hv := hu.congr (ho.symbol?_close hv)

end Lowering

/-! ## Sessions that declare all of their classes -/

namespace Session

variable {s t : Session}

/-- The session can be reached by calls on a new session, whatever they returned, none of which registers a
class. -/
def Native (s : Session) : Prop := s.Past fun _ request => ∀ c, request ≠ .addClass c

theorem Native.compile (unit : List Node) (dialect : Dialect) (h : s.Native) :
    (s.compile unit dialect).2.Native := h.call (.compile unit dialect) nofun

theorem Native.used (h : s.Native) : s.Used := by
  refine h.mono fun t request _ hnative => ?_
  cases request with
  | addClass c => exact absurd rfl (hnative c)
  | _ => trivial

/-- A new session has no symbols. -/
theorem symbolsOf_new (options : Options) (o : Owner) : (new options).symbolsOf o = [] := by
  cases o with
  | block id => rfl
  | cls cls =>
    unfold symbolsOf
    dsimp only
    cases hc : (new options).classes.get? cls with
    | none => rfl
    | some c =>
      have hmem : c ∈ Primitive.all.map fun p => ({ name := p.name, isPrimitive := true } : Class) :=
        List.mem_toArray.mp (Array.mem_of_getElem? hc)
      obtain ⟨p, _, rfl⟩ := List.mem_map.mp hmem
      rfl

theorem housed_new (options : Options) : (new options).Housed := by
  have hnone {o : Owner} {x : Symbol} (hx : x ∈ (new options).symbolsOf o) : False := by
    rw [symbolsOf_new] at hx
    cases hx
  exact ⟨fun _ _ hx => (hnone hx).elim, fun _ _ hx => (hnone hx).elim, fun _ _ hx => (hnone hx).elim⟩

theorem symbol?_unitStart (s : Session) (dialect : Dialect) :
    (s.unitStart dialect).2.symbol? = s.symbol? := by
  have hopen : ({ s with isWatching := false }.openUnit dialect).2.symbol? = s.symbol? := by
    unfold openUnit
    split
    · split
      · exact symbol?_of_new (header?_addBlock _ .global dialect none) rfl
      · have hheader := header?_modifyBlock (g := fun b => { b with dialect }) (fun _ => rfl)
          { s with isWatching := false } 0
        exact symbol?_of_tables rfl hheader
    · exact symbol?_of_new (header?_addBlock _ .global dialect (some 0)) rfl
  exact Eq.trans rfl hopen

/-- A variable of a library is entered into the first block, which may be made for it. -/
theorem importSymbol_eq (s : Session) (name : String) (type : Ty) (library : String) :
    ∃ (u : Session) (x : Symbol), u.symbol? = s.symbol? ∧ (u.header? 0).isSome ∧ x.isStatic = false ∧ x.classScope = none ∧
      x.block = 0 ∧ (s.importSymbol name type library).2 = u.enterLocal 0 x := by
  let counted (u : Session) : Session :=
    { u with counters := { u.counters with globals := u.counters.globals + 1 } }
  let imported (u : Session) : Symbol :=
    { name, type, library := some library, offset := u.counters.globals }
  unfold Session.importSymbol
  dsimp only
  split
  · next hempty =>
    have hsize : 0 = s.blocks.size := (Array.isEmpty_iff_size_eq_zero.mp hempty).symm
    let u := s.addBlock .global .associative none
    have hheader : (u.header? 0).isSome :=
      Option.isSome_iff_exists.mpr ⟨_, (header?_addBlock s _ _ none 0).trans (if_pos hsize)⟩
    exact ⟨counted u, imported u, symbol?_of_new (header?_addBlock s .global .associative none) rfl, hheader,
      rfl, rfl, rfl, rfl⟩
  · next hempty =>
    have hsize : s.blocks.size ≠ 0 := fun h => hempty (Array.isEmpty_iff_size_eq_zero.mpr h)
    have hheader : (s.header? 0).isSome :=
      (header?_isSome s 0).trans (Option.isSome_iff_exists.mpr ⟨_, Array.getElem?_eq_getElem (by omega)⟩)
    exact ⟨counted s, imported s, rfl, hheader, rfl, rfl, rfl, rfl⟩

theorem Housed.importSymbol (h : s.Housed) (name : String) (type : Ty) (library : String) :
    (s.importSymbol name type library).2.Housed := by
  obtain ⟨u, x, hsymbol, hheader, -, -, hblock, heq⟩ := s.importSymbol_eq name type library
  rw [heq]
  exact (h.congr hsymbol).enterLocal hheader hblock

theorem Native.housed (h : s.Native) : s.Housed := by
  obtain ⟨options, h⟩ := h
  induction h using Leads.induct with
  | refl => exact housed_new options
  | setFile t file ih => exact ih.congr rfl
  | setParsingModule t on ih => exact ih.congr rfl
  | importSymbol t name type library _ ih => exact ih.importSymbol name type library
  | addClass t c classes _ hnative ih => exact absurd rfl (hnative c)
  | addMethod t cls p _ ih => exact ih.congr (t.symbol?_register (.inClass cls) p)
  | addProcedure t p _ ih => exact ih.congr rfl
  | compile t unit dialect _ ht ih =>
    have hused := Native.used ⟨options, ht⟩
    refine invariant_housed.evolves (compile_evolves (hused.no_defect.1 unit dialect)) ?_
    exact ih.congr (t.symbol?_unitStart dialect)
  | watchExpression t id b node hb _ ht ih =>
    have hused := Native.used ⟨options, ht⟩
    obtain ⟨u, hu, heq⟩ := watch_evolves hb (hused.no_defect.2.1 id node)
    have hstart : Housed { t with isWatching := true } := ih.congr rfl
    rw [heq]
    exact (invariant_housed.evolves hu hstart).congr rfl

/-- The session is a native one, or the one in which lowering is in the course of a call on a native one. -/
inductive Occurs : Session → Prop where
  | rest {s : Session} : s.Native → Occurs s
  | unit {s t : Session} {f : Frame} (dialect : Dialect) : s.Native →
      Visits (s.unitSite dialect) (s.unitStart dialect).2 f t → Occurs t
  | watch {s t : Session} {f : Frame} {id : Nat} {b : Block} : s.Native → s.block? id = some b →
      Visits (s.watchSite id b) { s with isWatching := true } f t → Occurs t

theorem Occurs.housed (h : s.Occurs) : s.Housed := by
  cases h with
  | rest hs => exact hs.housed
  | @unit s _ _ dialect hs hv =>
    exact invariant_housed.visits hv (hs.housed.congr (s.symbol?_unitStart dialect))
  | @watch s _ _ id b hs hb hv =>
    have hstart : Housed { s with isWatching := true } := hs.housed.congr rfl
    exact invariant_housed.visits hv hstart

theorem Occurs.tables (h : s.Occurs) : s.Coherent ∧ s.Listed := by
  cases h with
  | rest hs => exact ⟨hs.used.reached.coherent, hs.used.listed⟩
  | unit dialect hs hv =>
    have hworking := Working.unit dialect hs.used hv
    exact ⟨hworking.moment.coherent.1, hworking.listed⟩
  | watch hs hb hv =>
    have hworking := Working.watch hs.used hb hv
    exact ⟨hworking.moment.coherent.1, hworking.listed⟩

end Session

/-! ## What a name stands for is at home -/

namespace Lowering.Sight

variable {v w : Sight} {name : String} {r q : SymbolRef} {x y : Symbol}

/-- An entry of a name is found where one stands, or before. -/
theorem staticEntry?_le (hl : v.session.Listed) {cls i : Nat} (hy : v.session.symbol? ⟨.block 0, i⟩ = some y)
    (hentry : y.isStaticIn cls = true) :
    ∃ j, j ≤ i ∧ v.staticEntry? cls y.name = some ⟨.block 0, j⟩ := by
  rw [Session.symbol?_block] at hy
  obtain ⟨hd, hheader, hget⟩ := Option.bind_eq_some_iff.mp hy
  obtain ⟨j, _, hfind, hle, _⟩ := (hl.blocks 0 hd hheader).findNamed?_le hget hentry
  have hsymbols : v.symbolsOf 0 = hd.symbols := by
    rw [symbolsOf_eq, hheader]
    rfl
  refine ⟨j, hle, ?_⟩
  unfold staticEntry?
  rw [hsymbols]
  exact congrArg (Option.map fun i => (⟨.block 0, i⟩ : SymbolRef)) hfind

/-- A static member is not found in the table of its class. -/
theorem not_isStatic_of_inClass (hh : v.session.Housed) (hl : v.session.Listed) {cls owner k : Nat}
    (h : v.inClass cls name = .found ⟨.cls owner, k⟩) (hx : v.session.symbol? ⟨.cls owner, k⟩ = some x) :
    x.isStatic = false := by
  unfold inClass at h
  split at h
  · cases h
  · cases h
  next m hm =>
  split at h
  · next r hentry =>
    split at hentry
    · obtain ⟨j, _, rfl⟩ := Option.map_eq_some_iff.mp hentry
      cases h
    · cases hentry
  next hentry =>
  cases h
  obtain ⟨c, access, hc, hd, -⟩ := ClassTable.searchMember_accessible hm
  obtain ⟨i, hi, heq⟩ := Option.map_eq_some_iff.mp hd
  cases heq
  obtain ⟨y, hy, hname, -⟩ := (hl.classes _ c hc).name_of_findNamed? hi
  have hxy : x = y := by
    rw [Session.symbol?_cls, hc] at hx
    exact Option.some.inj (hx.symm.trans hy)
  subst hxy
  refine Bool.eq_false_iff.mpr fun hstatic => ?_
  have hmember : v.isStaticMember m = true := by
    rw [isStaticMember, hc, Option.bind_some, hy]
    exact hstatic
  rw [if_pos hmember] at hentry
  -- The entry in the first block would have been found.
  obtain ⟨z, hz, hzname, hzstatic⟩ := hh.entries _ x (Session.mem_symbolsOf hx) hstatic
  obtain ⟨j, hj⟩ := List.mem_iff_getElem?.mp hz
  rw [Session.getElem?_symbolsOf] at hj
  obtain ⟨i', -, hentry'⟩ := staticEntry?_le hl hj hzstatic
  rw [hzname, hname, hentry] at hentry'
  cases hentry'

theorem Binds.not_isStatic (hh : v.session.Housed) (hl : v.session.Listed) {owner k : Nat}
    (h : v.Binds ⟨.cls owner, k⟩) (hx : v.session.symbol? ⟨.cls owner, k⟩ = some x) : x.isStatic = false := by
  cases h with
  | member cls name h => exact not_isStatic_of_inClass hh hl h hx
  | plain name h =>
    rcases resolve_found h with (hp | ⟨block, _, hb⟩) | ⟨cls, -, hc⟩
    · obtain ⟨body, i, y, _, heq, _⟩ := inProcedure?_eq_some hp
      cases heq
    · obtain ⟨i, y, heq, _⟩ := inBlock?_eq_some hb
      cases heq
    · exact not_isStatic_of_inClass hh hl hc hx

/-- What a name stands for is where the symbol says that it stands. -/
theorem Binds.home_eq (hs : v.session.Occurs) (h : v.Binds r) (hx : v.session.symbol? r = some x) :
    x.home = r := by
  obtain ⟨hcoherent, hl⟩ := hs.tables
  have hmem : x ∈ v.session.symbolsOf r.owner := Session.mem_symbolsOf hx
  have hposition := hcoherent.position hx
  have hplain {id k : Nat} (hr : r = ⟨.block id, k⟩) (hkind : (x.isMember && !x.isStatic) = false) :
      x.home = r := by
    subst hr
    rw [Symbol.home, if_neg (Bool.eq_false_iff.mp hkind), hs.housed.blocks id x hmem, hposition]
  cases h.finds hl hx with
  | plain hno => exact hplain rfl (by rw [hno]; rfl)
  | entry hfirst =>
    refine hplain rfl ?_
    have hstatic : x.isStatic = true := (Bool.and_eq_true_iff.mp hfirst.holds).1
    rw [hstatic, Bool.not_true, Bool.and_false]
  | member =>
    obtain ⟨hscope, hfunction⟩ := hs.housed.members _ x hmem
    have hkind : (x.isMember && !x.isStatic) = true := by
      rw [Symbol.isMember, hscope, hfunction, h.not_isStatic hs.housed hl hx]
      rfl
    rw [Symbol.home, if_pos hkind, hscope, hposition]
    rfl

end Lowering.Sight

/-! ## Stores that agree -/

section
variable {f g : Frame} {x y : Symbol} {dims dims' : Nat} {code code' : List Instruction}

/-- In some state, a store into the symbol behind `dims` subscripts is emitted from frame `f` as the given
instructions. -/
def EmitsStore (f : Frame) (x : Symbol) (dims : Nat) (code : List Instruction) : Prop :=
  ∃ span s p t, emitStore x dims span f s = .ok p t ∧
    (t.session.stream f.block).toList = (s.session.stream f.block).toList ++ code

theorem EmitsStore.eq (h : EmitsStore f x dims code) :
    code.map Instruction.unmarked = storeInstructions f.scope.classScope x dims := by
  obtain ⟨span, s, p, t, hrun, hcode⟩ := h
  have hcan : s.session.CanEmit f.block := by
    by_contra hcan
    unfold emitStore emitPushVarData emitSilent at hrun
    simp only [run_bind, run_classOperand, run_emitWith_error _ _ _ f s hcan] at hrun
    cases hrun
  obtain ⟨p', t', hrun', hpasses⟩ := passes_storeInstructions hcan x dims span
  cases hrun.symm.trans hrun'
  obtain ⟨added, hadded, heq⟩ := hpasses.code
  rw [← heq, List.append_cancel_left (hcode.symm.trans hadded)]

theorem emitsStore_of_canEmit {s : State} (hcan : s.session.CanEmit f.block) (x : Symbol) (dims : Nat) :
    ∃ code, EmitsStore f x dims code := by
  obtain ⟨p, t, hrun, hpasses⟩ := passes_storeInstructions hcan x dims .nil
  obtain ⟨added, hadded, -⟩ := hpasses.code
  exact ⟨added, .nil, s, p, t, hrun, hadded⟩

/-- A store tells where its variable stands, the number of the subscripts, and the scope of its code. -/
theorem home_eq_of_store {c c' : Option Nat}
    (h : storeInstructions c x dims = storeInstructions c' y dims') :
    x.home = y.home ∧ dims = dims' ∧ c = c' := by
  simp only [storeInstructions, Instruction.binary, Instruction.ternary, List.cons.injEq,
    Instruction.mk.injEq, Option.some.injEq, Operand.block.injEq, Operand.cls.injEq, Operand.arrayDim.injEq,
    true_and, and_true] at h
  obtain ⟨⟨hblock, hcls⟩, ⟨hdims, _⟩, _, hoperand, hscope, _⟩ := h
  obtain ⟨⟨hmember, hstatic⟩, hposition⟩ := (ofSymbol_eq_iff x y).mp hoperand
  refine ⟨?_, hdims, hcls⟩
  have hkind : (x.isMember && !x.isStatic) = (y.isMember && !y.isStatic) := by
    rw [← hmember]
    cases hx : x.isMember with
    | false => rfl
    | true => rw [hstatic hx]
  unfold Symbol.home
  rw [hkind, hblock, hscope, hposition]

/-- Stores are addressed unambiguously. In a session whose classes were all declared by units, two symbols that
names stand for are stored by the same instructions, up to debug records, exactly if they are one symbol, behind
the same number of subscripts, and the code runs in the scope of one class. -/
theorem stores_agree_iff {v w : Sight} {r q : SymbolRef} (hs : v.session.Occurs)
    (hw : w.session = v.session) (hr : v.Binds r) (hq : w.Binds q) (hx : v.session.symbol? r = some x)
    (hy : v.session.symbol? q = some y) (hcode : EmitsStore f x dims code)
    (hcode' : EmitsStore g y dims' code') :
    code.map Instruction.unmarked = code'.map Instruction.unmarked ↔
      r = q ∧ dims = dims' ∧ f.scope.classScope = g.scope.classScope := by
  rw [hcode.eq, hcode'.eq]
  constructor
  · intro h
    obtain ⟨hhome, hdims, hscope⟩ := home_eq_of_store h
    rw [hr.home_eq hs hx, hq.home_eq (hw ▸ hs) (hw ▸ hy)] at hhome
    exact ⟨hhome, hdims, hscope⟩
  · rintro ⟨rfl, rfl, hscope⟩
    cases hx.symm.trans hy
    rw [hscope]

/-- Two variables that are read by the same instruction are stored by different ones. -/
theorem nested_variables_stored_apart :
    let s := nestedReadsSession
    ∃ x y code code', Sight.Binds ⟨s, nestedReadsFrame, [1, 0]⟩ ⟨.block 0, 0⟩ ∧
      Sight.Binds ⟨s, nestedReadsFrame, [1, 0]⟩ ⟨.block 1, 0⟩ ∧
      s.symbol? ⟨.block 0, 0⟩ = some x ∧ s.symbol? ⟨.block 1, 0⟩ = some y ∧
      EmitsStore nestedReadsFrame x 0 code ∧ EmitsStore nestedReadsFrame y 0 code' ∧
      code.map Instruction.unmarked ≠ code'.map Instruction.unmarked := by
  intro s
  have hoccurs : s.Occurs := .rest (.compile nestedReads .imperative (.new {}))
  have hr : Sight.Binds ⟨s, nestedReadsFrame, [1, 0]⟩ ⟨.block 0, 0⟩ := .plain "x" (by decide +kernel)
  have hq : Sight.Binds ⟨s, nestedReadsFrame, [1, 0]⟩ ⟨.block 1, 0⟩ := .plain "y" (by decide +kernel)
  have hx : (s.symbol? ⟨.block 0, 0⟩).isSome := by decide +kernel
  have hy : (s.symbol? ⟨.block 1, 0⟩).isSome := by decide +kernel
  have hcan : s.CanEmit nestedReadsFrame.block := .inr (by decide +kernel)
  clear_value s
  obtain ⟨x, hx⟩ := Option.isSome_iff_exists.mp hx
  obtain ⟨y, hy⟩ := Option.isSome_iff_exists.mp hy
  obtain ⟨code, hcode⟩ := emitsStore_of_canEmit (f := nestedReadsFrame) (s := { session := s }) hcan x 0
  obtain ⟨code', hcode'⟩ := emitsStore_of_canEmit (f := nestedReadsFrame) (s := { session := s }) hcan y 0
  refine ⟨x, y, code, code', hr, hq, hx, hy, hcode, hcode', fun heq => ?_⟩
  have hsame := ((stores_agree_iff hoccurs rfl hr hq hx hy hcode hcode').mp heq).1
  exact absurd hsame (by decide)

end

end Diglot
