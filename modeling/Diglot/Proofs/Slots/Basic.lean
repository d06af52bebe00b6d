import Diglot.Proofs.Tables.Growth
import Diglot.Proofs.Flow.Stream

/-! # Places that are handed out

A variable gets its place from one of the counters of the session. `Spread` says of some of the symbols
that their places are below a count and that no two of them share one; it is kept when a symbol gets
the next place (`Spread.extend`). `symbol?_declare` tells what a declaration enters, and where.
-/

set_option autoImplicit false

namespace Diglot

open Lowering

/-! ## Places that no two symbols share -/

/-- The symbols in question have places below `n`, and no two of them share one. -/
structure Spread {κ : Type} (E : SymbolRef → Symbol → Prop) (key : Symbol → κ) (place : Nat → κ)
    (n : Nat) : Prop where
  inside : ∀ a x, E a x → ∃ k, k < n ∧ key x = place k
  apart : ∀ a b x y, E a x → E b y → key x = key y → a = b

namespace Spread

variable {κ : Type} {E E' : SymbolRef → Symbol → Prop} {key : Symbol → κ} {place : Nat → κ}
  {n : Nat}

theorem ofNone (h : ∀ a x, ¬ E a x) : Spread E key place n :=
  ⟨fun a x hx => absurd hx (h a x), fun a _ x _ hx => absurd hx (h a x)⟩

theorem mono {m : Nat} (h : Spread E key place n) (hE : ∀ a x, E' a x → E a x) (hn : n ≤ m) :
    Spread E' key place m := by
  refine ⟨fun a x hx => ?_, fun a b x y hx hy => h.apart a b x y (hE a x hx) (hE b y hy)⟩
  obtain ⟨k, hk, hkey⟩ := h.inside a x (hE a x hx)
  exact ⟨k, by omega, hkey⟩

/-- One more symbol gets the next place. -/
theorem extend (hplace : ∀ j k, place j = place k → j = k) (h : Spread E key place n)
    (a₀ : SymbolRef) (hE : ∀ a x, E' a x → E a x ∨ a = a₀ ∧ key x = place n) :
    Spread E' key place (n + 1) := by
  have hnext {a : SymbolRef} {x : Symbol} (hx : E a x) : key x ≠ place n := by
    intro heq
    obtain ⟨k, hk, hkey⟩ := h.inside a x hx
    have := hplace k n (hkey.symm.trans heq)
    omega
  refine ⟨fun a x hx => ?_, fun a b x y hx hy hkey => ?_⟩
  · rcases hE a x hx with hx | ⟨_, hx⟩
    · obtain ⟨k, hk, hkey⟩ := h.inside a x hx
      exact ⟨k, by omega, hkey⟩
    · exact ⟨n, by omega, hx⟩
  · rcases hE a x hx with hx | ⟨rfl, hx⟩
    · rcases hE b y hy with hy | ⟨_, hy⟩
      · exact h.apart a b x y hx hy hkey
      · exact absurd (hkey.trans hy) (hnext hx)
    · rcases hE b y hy with hy | ⟨rfl, _⟩
      · exact absurd (hkey.symm.trans hx) (hnext hy)
      · rfl

end Spread

/-! ## What is entered -/

namespace Session

theorem symbol?_cls (s : Session) (cls i : Nat) :
    s.symbol? ⟨.cls cls, i⟩ = (s.classes.get? cls).bind fun c => c.symbols.get? i := rfl

theorem symbol?_of_tables {s t : Session} (hc : t.classes = s.classes)
    (hh : t.header? = s.header?) : t.symbol? = s.symbol? := by
  funext ⟨owner, i⟩
  cases owner with
  | block id => rw [symbol?_block, symbol?_block, hh]
  | cls cls => rw [symbol?_cls, symbol?_cls, hc]

/-- The reference of the next symbol of a table. -/
def next (s : Session) (owner : Owner) : SymbolRef :=
  match owner with
  | .block id => ⟨owner, ((s.header? id).map fun h => h.symbols.size).getD 0⟩
  | .cls cls => ⟨owner, ((s.classes.get? cls).map fun c => c.symbols.size).getD 0⟩

theorem next_block {s : Session} {id : Nat} {h : Header} (hs : s.header? id = some h) :
    s.next (.block id) = ⟨.block id, h.symbols.size⟩ := by
  simp only [next, hs, Option.map_some, Option.getD_some]

theorem next_cls {s : Session} {cls : Nat} {c : Class} (hs : s.classes.get? cls = some c) :
    s.next (.cls cls) = ⟨.cls cls, c.symbols.size⟩ := by
  simp only [next, hs, Option.map_some, Option.getD_some]

theorem symbol?_next (s : Session) (owner : Owner) : s.symbol? (s.next owner) = none := by
  cases owner with
  | block id =>
    unfold next
    rw [symbol?_block]
    cases s.header? id with
    | none => rfl
    | some h => exact Array.getElem?_size
  | cls cls =>
    unfold next
    rw [symbol?_cls]
    cases s.classes.get? cls with
    | none => rfl
    | some c => exact Array.getElem?_size

theorem symbol?_enterLocal {s : Session} {id : Nat} {x y : Symbol} {a : SymbolRef}
    (h : (s.enterLocal id x).symbol? a = some y) :
    s.symbol? a = some y ∨
      a = s.next (.block id) ∧ y = { x with position := (s.next (.block id)).index } := by
  obtain ⟨owner, i⟩ := a
  cases owner with
  | cls cls => exact .inl h
  | block other =>
    rw [symbol?_block] at h ⊢
    unfold enterLocal at h
    rw [header?_modifyBlock_eq (k := fun h => { h with symbols := h.symbols.append x })
      (fun _ => rfl)] at h
    split at h
    · next heq =>
      subst heq
      obtain ⟨_, hmap, hy⟩ := Option.bind_eq_some_iff.mp h
      obtain ⟨hd, hs, rfl⟩ := Option.map_eq_some_iff.mp hmap
      rw [hs, next_block hs]
      rcases SymbolTable.get?_append_cases hy with hy | ⟨rfl, rfl⟩
      · exact .inl hy
      · exact .inr ⟨rfl, rfl⟩
    · exact .inl h

theorem symbol?_appendSymbol {s : Session} {cls : Nat} {x y : Symbol} {a : SymbolRef}
    (h : ({ s with classes := s.classes.appendSymbol cls x } : Session).symbol? a = some y) :
    s.symbol? a = some y ∨
      a = s.next (.cls cls) ∧ y = { x with position := (s.next (.cls cls)).index } := by
  obtain ⟨owner, i⟩ := a
  cases owner with
  | block id => exact .inl h
  | cls other =>
    rw [symbol?_cls] at h ⊢
    dsimp only [ClassTable.appendSymbol] at h
    rw [ClassTable.get?_modify] at h
    split at h
    · next heq =>
      subst heq
      obtain ⟨_, hmap, hy⟩ := Option.bind_eq_some_iff.mp h
      obtain ⟨c, hc, rfl⟩ := Option.map_eq_some_iff.mp hmap
      rw [hc, next_cls hc]
      rcases SymbolTable.get?_append_cases hy with hy | ⟨rfl, rfl⟩
      · exact .inl hy
      · exact .inr ⟨rfl, rfl⟩
    · exact .inl h

/-- A declaration enters one symbol at the end of its table. A static member is entered into the first
block as well. -/
theorem symbol?_declare (s : Session) (f : Frame) (d : Declaration) :
    (∃ cls, s.isWatching = false ∧ f.scope.procedure = none ∧ f.scope.classScope = some cls ∧
      ∀ a y, (s.declare f d).symbol? a = some y →
        s.symbol? a = some y ∨
          (a = s.next (.cls cls) ∧
            y = { s.declared f d with position := (s.next (.cls cls)).index }) ∨
          (∃ id, a.owner = .block id) ∧ y.isMember = true) ∨
      ((s.isWatching = true ∨ f.scope.procedure.isSome ∨ f.scope.classScope = none) ∧
        ∀ a y, (s.declare f d).symbol? a = some y →
          s.symbol? a = some y ∨
            a = s.next (.block f.block) ∧
              y = { s.declared f d with position := (s.next (.block f.block)).index }) := by
  obtain ⟨cls, counters, hw, hproc, hscope, _, heq⟩ | ⟨counters, hcase, _, heq⟩ := s.declare_cases f d
  · refine .inl ⟨cls, hw, hproc, hscope, fun a y hy => ?_⟩
    have hentered {y : Symbol} (hy : ({ s with
        counters, classes := s.classes.appendSymbol cls (s.declared f d) } :
          Session).symbol? a = some y) :
        s.symbol? a = some y ∨ a = s.next (.cls cls) ∧
          y = { s.declared f d with position := (s.next (.cls cls)).index } :=
      symbol?_appendSymbol (s := { s with counters }) hy
    rw [heq] at hy
    unfold enterMember at hy
    dsimp only at hy
    split at hy
    · rcases symbol?_enterLocal hy with hy | ⟨rfl, rfl⟩
      · rcases hentered hy with hy | hy
        · exact .inl hy
        · exact .inr (.inl hy)
      · refine .inr (.inr ⟨⟨0, rfl⟩, ?_⟩)
        change (f.scope.classScope.isSome && f.scope.function.isNone) = true
        rw [hscope, Scope.function, hproc]
        rfl
    · rcases hentered hy with hy | hy
      · exact .inl hy
      · exact .inr (.inl hy)
  · refine .inr ⟨hcase, fun a y hy => ?_⟩
    rw [heq] at hy
    exact symbol?_enterLocal (s := { s with counters }) hy

/-! ## Openings enter nothing -/

theorem symbol?_of_new {s t : Session} {parent : Option Nat} {procedure : Option ProcRef}
    (hnew : ∀ id, t.header? id =
      if id = s.blocks.size then some ⟨parent, procedure, {}⟩ else s.header? id)
    (hc : t.classes = s.classes) : t.symbol? = s.symbol? := by
  funext ⟨owner, i⟩
  cases owner with
  | cls cls => rw [symbol?_cls, symbol?_cls, hc]
  | block id =>
    rw [symbol?_block, symbol?_block, hnew]
    split
    · next hid =>
      have hnone : s.header? id = none := by
        refine Option.not_isSome_iff_eq_none.mp fun hsome => ?_
        obtain ⟨h, hs⟩ := Option.isSome_iff_exists.mp hsome
        have := lt_of_header? hs
        omega
      rw [hnone]
      rfl
    · rfl

theorem symbol?_openProcedure (s : Session) (f : Frame) (p : Procedure) (message : String) :
    (s.openProcedure f p message).symbol? = s.symbol? := by
  have hblock := symbol?_of_new (header?_addBlock_procedure (s.register f.scope p) .function f.dialect
    (some f.block) (some (s.nextProcedure f.scope))) rfl
  rw [blocks_register, symbol?_register] at hblock
  rw [← hblock]
  exact symbol?_modifyProcedure _ (s.nextProcedure f.scope) _

theorem symbol?_appendClass {s : Session} {c : Class} {classes : ClassTable} (hc : c.symbols = {})
    (h : s.classes.append? c = some classes) : ({ s with classes } : Session).symbol? = s.symbol? := by
  funext ⟨owner, i⟩
  cases owner with
  | block id => rfl
  | cls cls =>
    rw [symbol?_cls, symbol?_cls, ClassTable.get?_append? h]
    split
    · next hcls =>
      rw [hcls, ClassTable.get?_size, Option.bind_some, hc]
      rfl
    · rfl

/-! ## Counters -/

/-- Only what is compiled in a procedure has a place in the frame. -/
theorem bucketOf_eq_frame {isWatching isStatic : Bool} {scope : Scope} :
    bucketOf isWatching scope isStatic = .frame ↔ isWatching = false ∧ scope.procedure.isSome := by
  unfold bucketOf Scope.function
  cases isWatching <;> cases scope.procedure <;> cases scope.classScope <;> cases isStatic <;> simp

theorem counters_declare (s : Session) (f : Frame) (d : Declaration) :
    (s.declare f d).counters =
      countersAfter d s (bucketOf s.isWatching f.scope d.isStatic) 1 := by
  unfold declare
  generalize bucketOf s.isWatching f.scope d.isStatic = bucket
  have hsize : (symbolOf d s f bucket).size = 1 := rfl
  rw [← hsize]
  cases bucket with
  | classStatic cls | classInstance cls =>
    dsimp only [enterMember]
    split <;> rfl
  | _ => rfl

variable (s : Session) (f : Frame) (d : Declaration)

theorem globals_declare : (s.declare f d).counters.globals =
    if bucketOf s.isWatching f.scope d.isStatic = .global then s.counters.globals + 1
    else s.counters.globals := by
  rw [counters_declare]
  generalize bucketOf s.isWatching f.scope d.isStatic = bucket
  unfold countersAfter
  cases bucket <;> dsimp only <;> split <;> rfl

theorem locals_declare : (s.declare f d).counters.locals =
    if bucketOf s.isWatching f.scope d.isStatic = .frame then s.counters.locals + 1
    else s.counters.locals := by
  rw [counters_declare]
  generalize bucketOf s.isWatching f.scope d.isStatic = bucket
  unfold countersAfter
  cases bucket <;> dsimp only <;> split <;> rfl

theorem heap_declare : (s.declare f d).counters.heap =
    if d.region = .heap then s.counters.heap + 1 else s.counters.heap := by
  rw [counters_declare, heap_countersAfter]

theorem classStatics_declare (cls : Nat) :
    ((s.declare f d).counters.classStatics.get? cls).getD 0 =
      if bucketOf s.isWatching f.scope d.isStatic = .classStatic cls then
        (s.counters.classStatics.get? cls).getD 0 + 1
      else (s.counters.classStatics.get? cls).getD 0 := by
  have hcounters : (s.declare f d).counters.classStatics =
      ((bucketOf s.isWatching f.scope d.isStatic).setNext s.counters
        ((bucketOf s.isWatching f.scope d.isStatic).next s.counters s.classes + 1)).classStatics := by
    rw [counters_declare]
    unfold countersAfter
    dsimp only
    split <;> rfl
  rw [hcounters]
  generalize bucketOf s.isWatching f.scope d.isStatic = bucket
  cases bucket with
  | classStatic other =>
    simp only [Bucket.setNext, Bucket.next, Tally.get?_set, Bucket.classStatic.injEq]
    by_cases heq : cls = other
    · rw [if_pos heq, if_pos heq.symm, heq]
      rfl
    · rw [if_neg heq, if_neg (Ne.symm heq)]
  | _ => rfl

end Session

/-! ## Changes -/

/-- Only a declaration moves a counter that places are handed out from. -/
theorem Lowering.Change.unmoved_or_declare {K : OpCode → Prop} {f : Frame} {s t : Session}
    (h : Change K f s t) :
    (∃ d, t = s.declare f d) ∨
      s.SameNames t ∧ ∃ n, t.counters = { s.counters with temporaries := n } := by
  have hcounters : (∃ d, t = s.declare f d) ∨
      ∃ n, t.counters = { s.counters with temporaries := n } := by
    cases h with
    | declare d => exact .inl ⟨d, rfl⟩
    | temporary => exact .inr ⟨_, rfl⟩
    | emit i span =>
      refine .inr ⟨s.counters.temporaries, ?_⟩
      unfold Session.emit
      split <;> rfl
    | patch =>
      refine .inr ⟨s.counters.temporaries, ?_⟩
      unfold Session.replaceCode
      split <;> rfl
    | _ => exact .inr ⟨s.counters.temporaries, rfl⟩
  rcases h.sameNames_or_declare with hsame | hdeclare
  · rcases hcounters with hdeclare | hn
    · exact .inl hdeclare
    · exact .inr ⟨hsame, hn⟩
  · exact .inl hdeclare

/-! ## Places outside of procedures

Global variables, the static members of a class and the boxes on the heap get their places from counters
that all blocks and units share. No two of them ever share one, and outside of procedures no place in a
frame is taken (`invariant_shared`).

What watch expressions declare has places of its own, and so have classes that are registered from
outside: `W` tells the symbols that watch expressions declared, and `R` the classes that were
registered.
-/

namespace Session

/-- A global variable of a block, imported ones included, that no watch expression declared. -/
def IsGlobal (s : Session) (W : SymbolRef → Prop) (a : SymbolRef) (x : Symbol) : Prop :=
  s.symbol? a = some x ∧ (∃ id, a.owner = .block id) ∧ x.function = none ∧ x.classScope = none ∧ ¬ W a

/-- A static member of the class. -/
def IsStaticOf (s : Session) (cls : Nat) (a : SymbolRef) (x : Symbol) : Prop :=
  s.symbol? a = some x ∧ a.owner = .cls cls ∧ x.isStatic = true

/-- A symbol on the heap that is no mirror of a static member and belongs to no registered class. -/
def IsBoxed (s : Session) (R : Nat → Prop) (a : SymbolRef) (x : Symbol) : Prop :=
  s.symbol? a = some x ∧ x.region = .heap ∧ (∀ id, a.owner = .block id → x.isMember = false) ∧
    ∀ cls, a.owner = .cls cls → ¬ R cls

/-- No two symbols share a place outside of procedures. -/
structure Shared (W : SymbolRef → Prop) (R : Nat → Prop) (s : Session) : Prop where
  globals : Spread (s.IsGlobal W) Symbol.offset (fun k => (k : Int)) s.counters.globals
  statics : ∀ cls, ¬ R cls →
    Spread (s.IsStaticOf cls) Symbol.offset (fun k => (k : Int))
      ((s.counters.classStatics.get? cls).getD 0)
  boxes : Spread (s.IsBoxed R) Symbol.heapIndex some s.counters.heap

/-- A reference that is still free will be declared by a watch expression if one is being lowered. -/
def Foretells (w : Bool) (W : SymbolRef → Prop) (s : Session) : Prop :=
  ∀ a, s.symbol? a = none → (W a ↔ w = true)

variable {W : SymbolRef → Prop} {R : Nat → Prop} {s t : Session} {f g : Frame}

theorem Foretells.grows {w : Bool} (h : s.Foretells w W) (hst : s.Grows t) : t.Foretells w W := by
  intro a ha
  refine h a (Option.eq_none_iff_forall_not_mem.mpr fun x hx => ?_)
  rw [hst.symbols a x hx] at ha
  cases ha

theorem Shared.congr (h : Shared W R s) (hsymbol : t.symbol? = s.symbol?)
    (hglobals : t.counters.globals = s.counters.globals) (hheap : t.counters.heap = s.counters.heap)
    (hstatics : t.counters.classStatics = s.counters.classStatics) : Shared W R t := by
  refine ⟨h.globals.mono (fun a x hx => ?_) (Nat.le_of_eq hglobals.symm), fun cls hcls => ?_,
    h.boxes.mono (fun a x hx => ?_) (Nat.le_of_eq hheap.symm)⟩
  · exact ⟨hsymbol ▸ hx.1, hx.2⟩
  · refine (h.statics cls hcls).mono (fun a x hx => ?_) (Nat.le_of_eq (by rw [hstatics]))
    exact ⟨hsymbol ▸ hx.1, hx.2⟩
  · exact ⟨hsymbol ▸ hx.1, hx.2⟩

/-! ### Declarations -/

theorem ofNat_injective (j k : Nat) (h : (j : Int) = (k : Int)) : j = k := Int.ofNat.inj h

/-- A new global variable gets the next place. -/
theorem spread_globals_declare (h : Spread (s.IsGlobal W) Symbol.offset (fun k => (k : Int))
    s.counters.globals) (htells : s.Foretells s.isWatching W) (f : Frame) (d : Declaration) :
    Spread ((s.declare f d).IsGlobal W) Symbol.offset (fun k => (k : Int))
      (s.declare f d).counters.globals := by
  have hentry : ∀ a x, (s.declare f d).IsGlobal W a x → s.IsGlobal W a x ∨
      bucketOf s.isWatching f.scope d.isStatic = .global ∧ a = s.next (.block f.block) ∧
        x.offset = s.counters.globals := by
    rintro a x ⟨hx, ⟨id, hid⟩, hfn, hscope, hnot⟩
    rcases s.symbol?_declare f d with ⟨cls, _, _, _, hcases⟩ | ⟨hcase, hcases⟩
    · rcases hcases a x hx with hx | ⟨rfl, _⟩ | ⟨_, hmember⟩
      · exact .inl ⟨hx, ⟨id, hid⟩, hfn, hscope, hnot⟩
      · cases hid
      · simp [Symbol.isMember, hscope] at hmember
    · rcases hcases a x hx with hx | ⟨rfl, rfl⟩
      · exact .inl ⟨hx, ⟨id, hid⟩, hfn, hscope, hnot⟩
      · have hw : s.isWatching = false :=
          Bool.eq_false_iff.mpr fun hw => hnot ((htells _ (s.symbol?_next _)).mpr hw)
        have hbucket : bucketOf s.isWatching f.scope d.isStatic = .global := by
          have hfn' : f.scope.function = none := hfn
          have hscope' : f.scope.classScope = none := hscope
          simp [bucketOf, hw, hfn', hscope']
        refine .inr ⟨hbucket, rfl, ?_⟩
        change (bucketOf s.isWatching f.scope d.isStatic).offset _ = _
        rw [hbucket]
        rfl
  rw [globals_declare]
  split
  · refine h.extend ofNat_injective (s.next (.block f.block)) fun a x hx => ?_
    rcases hentry a x hx with hx | ⟨_, ha, hoffset⟩
    · exact .inl hx
    · exact .inr ⟨ha, hoffset⟩
  · next hbucket =>
    refine h.mono (fun a x hx => ?_) (Nat.le_refl _)
    rcases hentry a x hx with hx | ⟨hglobal, _⟩
    · exact hx
    · exact absurd hglobal hbucket

/-- A new static member gets the next place of its class. -/
theorem spread_statics_declare {cls : Nat} (h : Spread (s.IsStaticOf cls) Symbol.offset
    (fun k => (k : Int)) ((s.counters.classStatics.get? cls).getD 0)) (f : Frame) (d : Declaration) :
    Spread ((s.declare f d).IsStaticOf cls) Symbol.offset (fun k => (k : Int))
      (((s.declare f d).counters.classStatics.get? cls).getD 0) := by
  have hentry : ∀ a x, (s.declare f d).IsStaticOf cls a x → s.IsStaticOf cls a x ∨
      bucketOf s.isWatching f.scope d.isStatic = .classStatic cls ∧ a = s.next (.cls cls) ∧
        x.offset = ((s.counters.classStatics.get? cls).getD 0 : Nat) := by
    rintro a x ⟨hx, howner, hstatic⟩
    rcases s.symbol?_declare f d with ⟨other, hw, hproc, hscope, hcases⟩ | ⟨hcase, hcases⟩
    · rcases hcases a x hx with hx | ⟨rfl, rfl⟩ | ⟨⟨id, hid⟩, _⟩
      · exact .inl ⟨hx, howner, hstatic⟩
      · cases howner
        have hbucket : bucketOf s.isWatching f.scope d.isStatic = .classStatic cls := by
          have hstatic' : d.isStatic = true := hstatic
          simp [bucketOf, hw, Scope.function, hproc, hscope, hstatic']
        refine .inr ⟨hbucket, rfl, ?_⟩
        change (bucketOf s.isWatching f.scope d.isStatic).offset _ = _
        rw [hbucket]
        rfl
      · rw [howner] at hid
        cases hid
    · rcases hcases a x hx with hx | ⟨rfl, _⟩
      · exact .inl ⟨hx, howner, hstatic⟩
      · cases howner
  rw [classStatics_declare]
  split
  · refine h.extend ofNat_injective (s.next (.cls cls)) fun a x hx => ?_
    rcases hentry a x hx with hx | ⟨_, ha, hoffset⟩
    · exact .inl hx
    · exact .inr ⟨ha, hoffset⟩
  · next hbucket =>
    refine h.mono (fun a x hx => ?_) (Nat.le_refl _)
    rcases hentry a x hx with hx | ⟨hstatic, _⟩
    · exact hx
    · exact absurd hstatic hbucket

/-- A new symbol on the heap gets the next box. -/
theorem spread_boxes_declare (h : Spread (s.IsBoxed R) Symbol.heapIndex some s.counters.heap)
    (f : Frame) (d : Declaration) :
    Spread ((s.declare f d).IsBoxed R) Symbol.heapIndex some (s.declare f d).counters.heap := by
  have hnew (i : Nat) (hheap : ({ s.declared f d with position := i } : Symbol).region = .heap) :
      d.region = .heap ∧
        ({ s.declared f d with position := i } : Symbol).heapIndex = some s.counters.heap := by
    have hregion : d.region = .heap := hheap
    exact ⟨hregion, if_pos hregion⟩
  have hentry : ∃ a₀, ∀ a x, (s.declare f d).IsBoxed R a x → s.IsBoxed R a x ∨
      d.region = .heap ∧ a = a₀ ∧ x.heapIndex = some s.counters.heap := by
    rcases s.symbol?_declare f d with ⟨cls, _, _, _, hcases⟩ | ⟨_, hcases⟩
    · refine ⟨s.next (.cls cls), fun a x hx => ?_⟩
      obtain ⟨hx, hheap, hblock, hcls⟩ := hx
      rcases hcases a x hx with hx | ⟨rfl, rfl⟩ | ⟨⟨id, hid⟩, hmember⟩
      · exact .inl ⟨hx, hheap, hblock, hcls⟩
      · exact .inr ⟨(hnew _ hheap).1, rfl, (hnew _ hheap).2⟩
      · rw [hblock id hid] at hmember
        cases hmember
    · refine ⟨s.next (.block f.block), fun a x hx => ?_⟩
      obtain ⟨hx, hheap, hblock, hcls⟩ := hx
      rcases hcases a x hx with hx | ⟨rfl, rfl⟩
      · exact .inl ⟨hx, hheap, hblock, hcls⟩
      · exact .inr ⟨(hnew _ hheap).1, rfl, (hnew _ hheap).2⟩
  obtain ⟨a₀, hentry⟩ := hentry
  rw [heap_declare]
  split
  · refine h.extend (fun _ _ heq => Option.some.inj heq) a₀ fun a x hx => ?_
    rcases hentry a x hx with hx | ⟨_, ha, hindex⟩
    · exact .inl hx
    · exact .inr ⟨ha, hindex⟩
  · next hregion =>
    refine h.mono (fun a x hx => ?_) (Nat.le_refl _)
    rcases hentry a x hx with hx | ⟨hheap, _⟩
    · exact hx
    · exact absurd hheap hregion

theorem Shared.declare (h : Shared W R s) (htells : s.Foretells s.isWatching W) (f : Frame)
    (d : Declaration) : Shared W R (s.declare f d) :=
  ⟨spread_globals_declare h.globals htells f d, fun cls hcls => spread_statics_declare (h.statics cls hcls) f d,
    spread_boxes_declare h.boxes f d⟩

end Session

/-! ### The invariant -/

namespace Lowering

variable {w : Bool} {W : SymbolRef → Prop} {R : Nat → Prop} {s t : Session} {f g : Frame}

/-- What holds of the places outside of procedures while a call is lowered. -/
structure Orderly (w : Bool) (W : SymbolRef → Prop) (R : Nat → Prop) (f : Frame) (s : Session) :
    Prop where
  mode : s.isWatching = w
  foretells : s.Foretells w W
  registered : ∀ cls, R cls → (s.classes.get? cls).isSome
  shared : s.Shared W R
  idle : w = true ∨ f.scope.procedure = none → s.counters.locals = 0

theorem Orderly.change {K : OpCode → Prop} (h : Orderly w W R f s) (hc : Change K f s t) :
    Orderly w W R f t := by
  refine ⟨hc.isWatching_eq.trans h.mode, h.foretells.grows hc.grows,
    fun cls hcls => hc.grows.classes cls (h.registered cls hcls), ?_, ?_⟩ <;>
    rcases hc.unmoved_or_declare with ⟨d, rfl⟩ | ⟨hsame, n, hn⟩
  · exact h.shared.declare (by rw [h.mode]; exact h.foretells) f d
  · refine h.shared.congr (Session.symbol?_of_tables hsame.classes hsame.headers) ?_ ?_ ?_ <;> rw [hn]
  · intro hidle
    rw [Session.locals_declare, if_neg, h.idle hidle]
    intro hframe
    obtain ⟨hw, hproc⟩ := Session.bucketOf_eq_frame.mp hframe
    rcases hidle with rfl | hnone
    · rw [h.mode] at hw
      cases hw
    · rw [hnone] at hproc
      cases hproc
  · intro hidle
    rw [hn]
    exact h.idle hidle

theorem Opens.symbol?_eq {close : Session → Session → Prop} (h : Opens f s g t close) :
    t.symbol? = s.symbol? := by
  cases h with
  | block dialect => exact Session.symbol?_of_new (s.header?_openBlock f dialect) rfl
  | procedure p message => exact s.symbol?_openProcedure f p message
  | cls c classes _ _ hsymbols happ => exact Session.symbol?_appendClass hsymbols happ

theorem Opens.counters_eq {close : Session → Session → Prop} (h : Opens f s g t close) :
    ∃ n, t.counters = { s.counters with locals := n } ∧
      (s.counters.locals = 0 → n = 0) := by
  cases h with
  | block dialect =>
    refine ⟨s.counters.locals, ?_, id⟩
    simp [Session.openBlock, Session.modifyBlock]
  | procedure p message =>
    refine ⟨0, ?_, fun _ => rfl⟩
    change { (Session.modifyProcedure _ _ _).counters with locals := 0 } = _
    simp [Session.modifyBlock]
  | cls c classes => exact ⟨s.counters.locals, rfl, id⟩

theorem Orderly.opens {close : Session → Session → Prop} (h : Orderly w W R f s)
    (ho : Opens f s g t close) : Orderly w W R g t := by
  obtain ⟨n, hn, hzero⟩ := ho.counters_eq
  refine ⟨ho.isWatching_eq.trans h.mode, h.foretells.grows ho.grows,
    fun cls hcls => ho.grows.classes cls (h.registered cls hcls),
    h.shared.congr ho.symbol?_eq ?_ ?_ ?_, fun hidle => ?_⟩
  · rw [hn]
  · rw [hn]
  · rw [hn]
  · rw [hn]
    refine hzero (h.idle ?_)
    rcases hidle with hw | hproc
    · exact .inl hw
    · cases ho with
      | block dialect => exact .inr hproc
      | procedure p message => cases hproc
      | cls c classes hnone => exact .inr hnone

/-- Closing a procedure gives its count of locals back. -/
theorem Orderly.closes {close : Session → Session → Prop} {u v : Session} (h : Orderly w W R f s)
    (ho : Opens f s g t close) (hu : Orderly w W R g u) (hv : close u v) : Orderly w W R f v := by
  have hgrows := ho.grows_close hv
  cases ho with
  | block dialect =>
    cases hv
    exact ⟨hu.mode, hu.foretells, hu.registered, hu.shared, hu.idle⟩
  | cls c classes hnone =>
    cases hv
    exact ⟨hu.mode, hu.foretells, hu.registered, hu.shared, fun _ => hu.idle (.inr rfl)⟩
  | procedure p message =>
    obtain rfl | ⟨entry, rfl⟩ := hv
    · exact ⟨hu.mode, hu.foretells.grows hgrows, hu.registered, hu.shared.congr rfl rfl rfl rfl, h.idle⟩
    · refine ⟨?_, hu.foretells.grows hgrows,
        fun cls hcls => hgrows.classes cls (hu.registered cls hcls),
        hu.shared.congr (Session.symbol?_modifyProcedure _ _ _) ?_ ?_ ?_, fun hidle => ?_⟩
      · rw [Session.isWatching_modifyProcedure]
        exact hu.mode
      · rw [Session.counters_modifyProcedure]
        rfl
      · rw [Session.counters_modifyProcedure]
        rfl
      · rw [Session.counters_modifyProcedure]
        rfl
      · rw [Session.counters_modifyProcedure]
        exact h.idle hidle

theorem invariant_shared (w : Bool) (W : SymbolRef → Prop) (R : Nat → Prop) :
    Invariant (Orderly w W R) where
  change := Orderly.change
  opens := Orderly.opens
  closes := fun h ho _ hu hv => h.closes ho hu hv

end Lowering

end Diglot
