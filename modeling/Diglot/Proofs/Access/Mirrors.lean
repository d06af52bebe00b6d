import Diglot.Proofs.Course.Session
import Diglot.Proofs.Slots.Members
import Diglot.Proofs.Slots.Basic

/-! # Static members in the first block

A static member stands in the table of its class and, for code outside of the class, in that of the first
block. A class that is declared has the same static members in both, in the same order; one that is registered
from outside has none in the first block (`Used.mirrored`).
-/

set_option autoImplicit false

namespace Diglot

open Lowering

namespace Symbol

/-- The symbol but for where it stands. -/
def bare (x : Symbol) : Symbol := { x with block := 0, position := 0 }

/-- A static member of the class. -/
def isStaticIn (cls : Nat) (x : Symbol) : Bool := x.isStatic && x.classScope == some cls

end Symbol

namespace Session

variable {s t : Session}

/-! ## Symbols by their table -/

/-- The symbols of a table. -/
def symbolsOf (s : Session) : Owner → List Symbol
  | .block id => ((s.header? id).map fun h => h.symbols.symbols.toList).getD []
  | .cls cls => ((s.classes.get? cls).map fun c => c.symbols.symbols.toList).getD []

theorem getElem?_symbolsOf (s : Session) (o : Owner) (i : Nat) :
    (s.symbolsOf o)[i]? = s.symbol? ⟨o, i⟩ := by
  cases o with
  | block id =>
    rw [symbol?_block]
    cases hs : s.header? id with
    | none => simp [symbolsOf, hs]
    | some h => simp [symbolsOf, hs, SymbolTable.get?]
  | cls cls =>
    rw [symbol?_cls]
    cases hc : s.classes.get? cls with
    | none => simp [symbolsOf, hc]
    | some c => simp [symbolsOf, hc, SymbolTable.get?]

theorem symbolsOf_congr (h : t.symbol? = s.symbol?) : t.symbolsOf = s.symbolsOf := by
  funext o
  refine List.ext_getElem? fun i => ?_
  rw [getElem?_symbolsOf, getElem?_symbolsOf, h]

theorem symbolsOf_enterLocal {id : Nat} (x : Symbol) (hid : (s.header? id).isSome) (o : Owner) :
    ∃ n, (s.enterLocal id x).symbolsOf o =
      s.symbolsOf o ++ if o = .block id then [{ x with position := n }] else [] := by
  obtain ⟨h, hs⟩ := Option.isSome_iff_exists.mp hid
  refine ⟨h.symbols.size, ?_⟩
  cases o with
  | cls cls => exact (List.append_nil _).symm
  | block other =>
    simp only [symbolsOf, enterLocal,
      header?_modifyBlock_eq (g := fun b => { b with symbols := b.symbols.append x })
        (k := fun h => { h with symbols := h.symbols.append x }) (fun _ => rfl)]
    by_cases heq : id = other
    · subst heq
      simp [hs, SymbolTable.append, SymbolTable.size]
    · have hne : Owner.block other ≠ .block id := fun h => heq (Owner.block.inj h).symm
      rw [if_neg heq, if_neg hne, List.append_nil]

theorem symbolsOf_appendSymbol {cls : Nat} (x : Symbol) (hcls : (s.classes.get? cls).isSome) (o : Owner) :
    ∃ n, ({ s with classes := s.classes.appendSymbol cls x } : Session).symbolsOf o =
      s.symbolsOf o ++ if o = .cls cls then [{ x with position := n }] else [] := by
  obtain ⟨c, hc⟩ := Option.isSome_iff_exists.mp hcls
  refine ⟨c.symbols.size, ?_⟩
  cases o with
  | block id => exact (List.append_nil _).symm
  | cls other =>
    simp only [symbolsOf, ClassTable.appendSymbol, ClassTable.get?_modify]
    by_cases heq : cls = other
    · subst heq
      simp [hc, SymbolTable.append, SymbolTable.size]
    · have hne : Owner.cls other ≠ .cls cls := fun h => heq (Owner.cls.inj h).symm
      rw [if_neg heq, if_neg hne, List.append_nil]

/-! ## Static members and their entries -/

/-- The symbols of a table that satisfy a condition, but for where they stand. -/
def picked (s : Session) (o : Owner) (p : Symbol → Bool) : List Symbol :=
  ((s.symbolsOf o).filter p).map Symbol.bare

/-- The static members of a class. -/
def statics (s : Session) (cls : Nat) : List Symbol := s.picked (.cls cls) Symbol.isStatic

/-- The entries of the static members of a class in the first block. -/
def entries (s : Session) (cls : Nat) : List Symbol := s.picked (.block 0) (Symbol.isStaticIn cls)

theorem picked_congr (h : t.symbol? = s.symbol?) : t.picked = s.picked := by
  funext o p
  rw [picked, symbolsOf_congr h, picked]

theorem mem_picked {o : Owner} {i : Nat} {x : Symbol} {p : Symbol → Bool}
    (hx : s.symbol? ⟨o, i⟩ = some x) (hp : p x = true) : x.bare ∈ s.picked o p := by
  refine List.mem_map_of_mem (List.mem_filter.mpr ⟨?_, hp⟩)
  exact List.mem_of_getElem? ((s.getElem?_symbolsOf o i).trans hx)

/-- What is entered at the end of a table is picked last. -/
theorem picked_of_entered {o o' : Owner} {x : Symbol} {n : Nat} {p : Symbol → Bool}
    (hp : p { x with position := n } = p x)
    (h : t.symbolsOf o = s.symbolsOf o ++ if o = o' then [{ x with position := n }] else []) :
    t.picked o p = s.picked o p ++ if o = o' ∧ p x = true then [x.bare] else [] := by
  rw [picked, h, List.filter_append, List.map_append]
  congr 1
  by_cases ho : o = o'
  · cases hx : p x with
    | true =>
      rw [if_pos ho, if_pos ⟨ho, rfl⟩, List.filter_cons_of_pos (hp.trans hx)]
      rfl
    | false =>
      rw [if_pos ho, if_neg (fun h => by cases h.2),
        List.filter_cons_of_neg (by rw [hp, hx]; exact Bool.false_ne_true)]
      rfl
  · rw [if_neg ho, if_neg (fun h => ho h.1)]
    rfl

theorem statics_enterLocal {id : Nat} (x : Symbol) (hid : (s.header? id).isSome) (cls : Nat) :
    (s.enterLocal id x).statics cls = s.statics cls := by
  obtain ⟨n, hn⟩ := symbolsOf_enterLocal x hid (.cls cls)
  rw [statics, picked_of_entered rfl hn, if_neg (fun h => by cases h.1), List.append_nil]
  rfl

theorem entries_enterLocal {id : Nat} (x : Symbol) (hid : (s.header? id).isSome) (cls : Nat) :
    (s.enterLocal id x).entries cls =
      s.entries cls ++ if id = 0 ∧ x.isStaticIn cls = true then [x.bare] else [] := by
  obtain ⟨n, hn⟩ := symbolsOf_enterLocal x hid (.block 0)
  rw [entries, picked_of_entered rfl hn]
  simp only [Owner.block.injEq, eq_comm (a := 0)]
  rfl

/-- A static member goes to the end of its class and, as its entry, to the end of the first block. -/
theorem enterMember_mirrors {cls : Nat} {x : Symbol} (hcls : (s.classes.get? cls).isSome)
    (hfirst : x.isStatic = true → (s.header? 0).isSome) (hx : x.classScope = some cls) (other : Nat) :
    (s.enterMember cls x).statics other =
        s.statics other ++ (if other = cls ∧ x.isStatic = true then [x.bare] else []) ∧
      (s.enterMember cls x).entries other =
        s.entries other ++ if other = cls ∧ x.isStatic = true then [x.bare] else [] := by
  let u : Session := { s with classes := s.classes.appendSymbol cls x }
  have hstatics : u.statics other =
      s.statics other ++ if other = cls ∧ x.isStatic = true then [x.bare] else [] := by
    obtain ⟨n, hn⟩ := symbolsOf_appendSymbol x hcls (.cls other)
    rw [statics, picked_of_entered rfl hn]
    simp only [Owner.cls.injEq]
    rfl
  have hentries : u.entries other = s.entries other := rfl
  unfold enterMember
  dsimp only
  by_cases hstatic : x.isStatic = true
  · have hheader : (u.header? 0).isSome := hfirst hstatic
    rw [if_pos hstatic]
    refine ⟨(statics_enterLocal _ hheader other).trans hstatics, ?_⟩
    refine (entries_enterLocal _ hheader other).trans ?_
    have hmember : ({ x with block := 0 } : Symbol).isStaticIn other = (cls == other) := by
      simp [Symbol.isStaticIn, hstatic, hx]
    rw [hentries, hmember]
    by_cases heq : other = cls
    · rw [if_pos ⟨rfl, beq_iff_eq.mpr heq.symm⟩, if_pos ⟨heq, hstatic⟩]
      rfl
    · rw [if_neg (fun h => heq (beq_iff_eq.mp h.2).symm), if_neg (fun h => heq h.1)]
  · have hnot : ¬ (other = cls ∧ x.isStatic = true) := fun h => hstatic h.2
    rw [if_neg hnot, List.append_nil] at hstatics ⊢
    rw [if_neg hstatic]
    exact ⟨hstatics, hentries.trans (List.append_nil _).symm⟩

/-- Where a class has static members and entries in the first block, these are the same. -/
structure Mirrored (s : Session) : Prop where
  same : ∀ cls, s.entries cls = s.statics cls ∨ s.entries cls = [] ∨ s.statics cls = []
  new : ∀ cls, s.classes.size ≤ cls → s.entries cls = []

theorem Mirrored.congr (h : s.Mirrored) (hc : t.classes.size = s.classes.size)
    (hsymbol : t.symbol? = s.symbol?) : t.Mirrored := by
  refine ⟨fun cls => ?_, fun cls hcls => ?_⟩
  · unfold entries statics
    rw [picked_congr hsymbol]
    exact h.same cls
  · unfold entries
    rw [picked_congr hsymbol]
    exact h.new cls (hc ▸ hcls)

end Session

theorem Session.lt_of_class {s : Session} {cls : Nat} (h : (s.classes.get? cls).isSome) :
    cls < s.classes.size := by
  obtain ⟨c, hc⟩ := Option.isSome_iff_exists.mp h
  exact (Array.getElem?_eq_some_iff.mp hc).1

/-! ## Lowering keeps them the same -/

namespace Lowering

variable {s₀ s t : Session} {f g : Frame}

/-- In a call on the session `s₀` nothing is entered into the classes it had, and the entries of new classes
are made together with their static members. A watch expression makes no static member. -/
structure Mirroring (s₀ : Session) (f : Frame) (s : Session) : Prop where
  coherent : s.Coherent
  placed : f.Placed s
  mode : s.isWatching = s₀.isWatching
  size : s₀.classes.size ≤ s.classes.size
  old : ∀ cls, cls < s₀.classes.size →
    s.entries cls = s₀.entries cls ∧ s.statics cls = s₀.statics cls
  young : ∀ cls, s₀.classes.size ≤ cls →
    if s₀.isWatching then s.statics cls = [] else s.entries cls = s.statics cls
  new : ∀ cls, s.classes.size ≤ cls → s.entries cls = []
  frame : f.scope.procedure = none → ∀ cls, f.scope.classScope = some cls →
    s₀.classes.size ≤ cls ∧ (s.classes.get? cls).isSome

theorem Mirroring.mirrored (h : Mirroring s₀ f s) (h₀ : s₀.Mirrored) : s.Mirrored := by
  refine ⟨fun cls => ?_, h.new⟩
  by_cases hcls : cls < s₀.classes.size
  · obtain ⟨hentries, hstatics⟩ := h.old cls hcls
    rw [hentries, hstatics]
    exact h₀.same cls
  · have hyoung := h.young cls (Nat.le_of_not_lt hcls)
    split at hyoung
    · exact .inr (.inr hyoung)
    · exact .inl hyoung

/-- What is looked up may be kept in other tables, and the frame may be another one. -/
theorem Mirroring.congr (h : Mirroring s₀ f s) (hcoherent : t.Coherent) (hplaced : g.Placed t)
    (hmode : t.isWatching = s.isWatching) (hsize : s.classes.size ≤ t.classes.size)
    (hsymbol : t.symbol? = s.symbol?)
    (hframe : g.scope.procedure = none → ∀ cls, g.scope.classScope = some cls →
      s₀.classes.size ≤ cls ∧ (t.classes.get? cls).isSome) : Mirroring s₀ g t := by
  have hentries : t.entries = s.entries := by
    funext cls
    exact congrFun (congrFun (Session.picked_congr hsymbol) _) _
  have hstatics : t.statics = s.statics := by
    funext cls
    exact congrFun (congrFun (Session.picked_congr hsymbol) _) _
  refine ⟨hcoherent, hplaced, hmode.trans h.mode, Nat.le_trans h.size hsize, ?_, ?_, fun cls hcls => ?_,
    hframe⟩
  · rw [hentries, hstatics]
    exact h.old
  · rw [hentries, hstatics]
    exact h.young
  · rw [hentries]
    exact h.new cls (Nat.le_trans hsize hcls)

theorem Mirroring.declare (h : Mirroring s₀ f s) {d : Declaration}
    (hmode : (s.declare f d).isWatching = s.isWatching) : Mirroring s₀ f (s.declare f d) := by
  have hgrows := s.grows_declare f d
  have hsize : (s.declare f d).classes.size = s.classes.size := (Session.sameBases_declare s f d).size
  obtain ⟨hd', hheader, hprocedure⟩ := h.placed.block
  suffices htables : (∀ cls, cls < s₀.classes.size →
        (s.declare f d).entries cls = s.entries cls ∧ (s.declare f d).statics cls = s.statics cls) ∧
      (∀ cls, s₀.classes.size ≤ cls →
        if s₀.isWatching then (s.declare f d).statics cls = []
        else (s.declare f d).entries cls = (s.declare f d).statics cls) ∧
      ∀ cls, s.classes.size ≤ cls → (s.declare f d).entries cls = [] by
    obtain ⟨hold, hyoung, hnew⟩ := htables
    refine ⟨coherent_declare h.coherent h.placed d, h.placed.keeps hgrows.keeps, hmode.trans h.mode,
      hsize ▸ h.size, fun cls hcls => ?_, hyoung, hsize ▸ hnew,
      fun hproc cls hscope => (h.frame hproc cls hscope).imp_right (hgrows.classes cls)⟩
    obtain ⟨hentries, hstatics⟩ := hold cls hcls
    rw [hentries, hstatics]
    exact h.old cls hcls
  obtain ⟨cls, counters, hw, hproc, hscope, _, heq⟩ | ⟨counters, hcase, _, heq⟩ :=
    s.declare_cases f d
  · -- A member goes into the class of the frame and, if it is static, into the first block.
    obtain ⟨hyoung, hcls⟩ := h.frame hproc cls hscope
    have hlt := Session.lt_of_class hcls
    have hfirst : (s.header? 0).isSome := by
      have := Session.lt_of_header? hheader
      rw [Session.header?_isSome]
      exact Option.isSome_iff_exists.mpr ⟨_, Array.getElem?_eq_getElem (by omega)⟩
    have hboth (other : Nat) := Session.enterMember_mirrors (s := { s with counters }) hcls
      (x := s.declared f d) (fun _ => hfirst) hscope other
    have hother {other : Nat} (hne : other ≠ cls) :
        (s.declare f d).statics other = s.statics other ∧
          (s.declare f d).entries other = s.entries other := by
      obtain ⟨hstatics, hentries⟩ := hboth other
      rw [if_neg (fun h => hne h.1), List.append_nil, ← heq] at hstatics hentries
      exact ⟨hstatics, hentries⟩
    refine ⟨fun other hlt' => (hother (by omega)).symm, fun other hother' => ?_, fun other hle => ?_⟩
    · have hsame := h.young other hother'
      rw [← h.mode, hw] at hsame ⊢
      rw [heq, (hboth other).1, (hboth other).2]
      exact congrArg (· ++ _) hsame
    · rw [(hother (by omega)).2]
      exact h.new other hle
  · have hheader' : (({ s with counters } : Session).header? f.block).isSome :=
      Option.isSome_iff_exists.mpr ⟨_, hheader⟩
    have hstatics (other : Nat) : (s.declare f d).statics other = s.statics other := by
      rw [heq]
      exact Session.statics_enterLocal _ hheader' other
    -- An entry of a class is only made in a frame of that class, while watching.
    have hentries {other : Nat}
        (hno : ¬ (s.isWatching = true ∧ s₀.classes.size ≤ other ∧ other < s.classes.size)) :
        (s.declare f d).entries other = s.entries other := by
      have hentered := Session.entries_enterLocal (s := { s with counters }) (s.declared f d) hheader' other
      rw [← heq, if_neg, List.append_nil] at hentered
      · exact hentered
      · intro ⟨hblock, hstatic⟩
        rw [hblock] at hheader
        have hproc : f.scope.procedure = none := hprocedure.symm.trans (h.coherent.first _ hheader)
        have hscope : f.scope.classScope = some other := by
          have hand : (s.declared f d).isStatic = true ∧
              ((s.declared f d).classScope == some other) = true := Bool.and_eq_true_iff.mp hstatic
          exact eq_of_beq hand.2
        rcases hcase with hw | hsome | hnone
        · exact hno ⟨hw, (h.frame hproc other hscope).imp_right Session.lt_of_class⟩
        · rw [hproc] at hsome
          cases hsome
        · rw [hscope] at hnone
          cases hnone
    refine ⟨fun other hlt => ⟨hentries (by omega), hstatics other⟩, fun other hle => ?_,
      fun other hle => ?_⟩
    · have hsame := h.young other hle
      split at hsame
      · next hw => rw [if_pos hw, hstatics, hsame]
      · next hw =>
        rw [if_neg hw, hstatics, hentries (fun hno => hw (h.mode ▸ hno.1)), hsame]
    · rw [hentries (by omega)]
      exact h.new other hle

variable {K : OpCode → Prop} {close : Session → Session → Prop} {u v : Session}

/-- Only declarations change what stands in the tables. -/
theorem Mirroring.change (h : Mirroring s₀ f s) (hc : Change K f s t) : Mirroring s₀ f t := by
  have hmode := hc.isWatching_eq
  obtain ⟨hcoherent, hplaced⟩ := invariant_coherent.change ⟨h.coherent, h.placed⟩ hc
  rcases hc.sameNames_or_declare with hsame | ⟨d, rfl⟩
  · refine h.congr hcoherent hplaced hmode (Nat.le_of_eq (by rw [hsame.classes]))
      (Session.symbol?_of_tables hsame.classes hsame.headers) ?_
    rw [hsame.classes]
    exact h.frame
  · exact h.declare hmode

theorem Mirroring.opens (h : Mirroring s₀ f s) (ho : Opens f s g t close) : Mirroring s₀ g t := by
  obtain ⟨hcoherent, hplaced⟩ := invariant_coherent.opens ⟨h.coherent, h.placed⟩ ho
  refine h.congr hcoherent hplaced ho.isWatching_eq ?_ ho.symbol?_eq ?_
  · cases ho with
    | block dialect => exact Nat.le_refl _
    | procedure p message => exact Nat.le_of_eq (s.sameBases_openProcedure f p message).size.symm
    | cls c classes _ _ _ happ =>
      rw [ClassTable.size_append? happ]
      exact Nat.le_succ _
  · intro hproc cls hscope
    cases ho with
    | block dialect => exact h.frame hproc cls hscope
    | procedure p message => cases hproc
    | cls c classes _ _ _ happ =>
      cases hscope
      refine ⟨h.size, ?_⟩
      rw [ClassTable.get?_append? happ, if_pos rfl]
      rfl

/-- An inner frame is closed without a change to the tables. -/
theorem Opens.symbol?_close (ho : Opens f s g t close) (hv : close u v) : v.symbol? = u.symbol? := by
  cases ho with
  | block dialect => rw [hv]
  | cls c classes => rw [hv]
  | procedure p message =>
    have hlocals : (u.setLocals s.counters.locals).symbol? = u.symbol? := rfl
    obtain rfl | ⟨entry, rfl⟩ := hv
    · exact hlocals
    · rw [Session.symbol?_modifyProcedure, hlocals]

theorem Mirroring.closes (h : Mirroring s₀ f s) (ho : Opens f s g t close) (hg : Evolves K g t u)
    (hu : Mirroring s₀ g u) (hv : close u v) : Mirroring s₀ f v := by
  obtain ⟨hcoherent, hplaced⟩ :=
    invariant_coherent.closes ⟨h.coherent, h.placed⟩ ho hg ⟨hu.coherent, hu.placed⟩ hv
  have hgrows := (ho.grows.trans hg.grows).trans (ho.grows_close hv)
  refine hu.congr hcoherent hplaced (ho.close_eq hv).1
    (Nat.le_of_eq (ho.sameBases_close hv).size.symm) (ho.symbol?_close hv) fun hproc cls hscope =>
    (h.frame hproc cls hscope).imp_right (hgrows.classes cls)

theorem invariant_mirroring (s₀ : Session) : Invariant (Mirroring s₀) where
  change := Mirroring.change
  opens := Mirroring.opens
  closes := Mirroring.closes

end Lowering

/-! ## All sessions -/

namespace Session

variable {s t : Session}

theorem mirrored_new (options : Options) : (new options).Mirrored :=
  ⟨fun _ => .inr (.inl rfl), fun _ _ => rfl⟩

theorem Mirrored.addBlock (h : s.Mirrored) (kind : BlockKind) (dialect : Dialect) (parent : Option Nat) :
    (s.addBlock kind dialect parent).Mirrored := by
  have hc : (s.addBlock kind dialect parent).classes = s.classes := by cases parent <;> rfl
  exact h.congr (by rw [hc]) (symbol?_of_new (header?_addBlock s kind dialect parent) hc)

/-- A symbol outside of classes is no entry of a static member. -/
theorem Mirrored.enterGlobal (h : s.Mirrored) (hfirst : (s.header? 0).isSome) {x : Symbol}
    (hx : x.isStatic = false) : (s.enterLocal 0 x).Mirrored := by
  have hentries (cls : Nat) : (s.enterLocal 0 x).entries cls = s.entries cls := by
    rw [entries_enterLocal x hfirst, if_neg, List.append_nil]
    intro hstatic
    rw [Symbol.isStaticIn, hx] at hstatic
    cases hstatic.2
  refine ⟨fun cls => ?_, fun cls hcls => ?_⟩
  · rw [hentries, statics_enterLocal x hfirst]
    exact h.same cls
  · rw [hentries]
    exact h.new cls hcls

theorem Mirrored.importSymbol (h : s.Mirrored) (name : String) (type : Ty) (library : String) :
    (s.importSymbol name type library).2.Mirrored := by
  have hcounted {u : Session} (hu : u.Mirrored) (n : Nat) :
      ({ u with counters := { u.counters with globals := n } } : Session).Mirrored := hu.congr rfl rfl
  unfold Session.importSymbol
  dsimp only
  split
  · next hempty =>
    have hsize : 0 = s.blocks.size := (Array.isEmpty_iff_size_eq_zero.mp hempty).symm
    refine (hcounted (h.addBlock .global .associative none) _).enterGlobal ?_ rfl
    exact Option.isSome_iff_exists.mpr ⟨_, (header?_addBlock s _ _ none 0).trans (if_pos hsize)⟩
  · next hempty =>
    have hsize : s.blocks.size ≠ 0 := fun h => hempty (Array.isEmpty_iff_size_eq_zero.mpr h)
    refine (hcounted h _).enterGlobal ?_ rfl
    refine (header?_isSome s 0).trans ?_
    exact Option.isSome_iff_exists.mpr ⟨_, Array.getElem?_eq_getElem (by omega)⟩

/-- A class that is registered has no entries in the first block. -/
theorem Mirrored.appendClass (h : s.Mirrored) {c : Class} {classes : ClassTable}
    (happ : s.classes.append? c = some classes) : Mirrored { s with classes } := by
  have hsize := ClassTable.size_append? happ
  refine ⟨fun cls => ?_, fun cls hcls => h.new cls (by dsimp only at hcls; omega)⟩
  by_cases hcls : cls = s.classes.size
  · exact .inr (.inl (h.new cls (Nat.le_of_eq hcls.symm)))
  · have hstatics : ({ s with classes } : Session).statics cls = s.statics cls := by
      simp only [statics, picked, symbolsOf, ClassTable.get?_append? happ, if_neg hcls]
    rw [hstatics]
    exact h.same cls

theorem Mirrored.unitStart (h : s.Mirrored) (dialect : Dialect) : (s.unitStart dialect).2.Mirrored := by
  have hquiet : Mirrored { s with isWatching := false } := h.congr rfl rfl
  have hopen : ({ s with isWatching := false }.openUnit dialect).2.Mirrored := by
    unfold Session.openUnit
    split
    · split
      · exact hquiet.addBlock .global dialect none
      · have hheader := header?_modifyBlock (g := fun b => { b with dialect }) (fun _ => rfl)
          { s with isWatching := false } 0
        exact hquiet.congr rfl (symbol?_of_tables rfl hheader)
    · exact hquiet.addBlock .global dialect (some 0)
  exact hopen.congr rfl rfl

/-- A call begins outside of class bodies. -/
theorem Mirrored.start (h : s.Mirrored) {f : Frame} (hs : s.Coherent ∧ f.Placed s)
    (hf : f.scope.procedure = none → f.scope.classScope = none) : Mirroring s f s := by
  refine ⟨hs.1, hs.2, rfl, Nat.le_refl _, fun _ _ => ⟨rfl, rfl⟩, fun cls hcls => ?_, h.new,
    fun hproc cls hscope => ?_⟩
  · have hstatics : s.statics cls = [] := by
      have hnone : s.classes.get? cls = none := Array.getElem?_eq_none hcls
      simp only [statics, picked, symbolsOf, hnone]
      rfl
    split
    · exact hstatics
    · rw [hstatics, h.new cls hcls]
  · rw [hf hproc] at hscope
    cases hscope

theorem scope_watchSite (s : Session) (id : Nat) (b : Block) :
    (s.watchSite id b).scope.procedure = none → (s.watchSite id b).scope.classScope = none := by
  unfold watchSite scopeOf
  cases b.procedure with
  | none => exact fun _ => rfl
  | some r => exact nofun

theorem Reached.mirrored (h : s.Reached) : s.Mirrored := by
  obtain ⟨options, h⟩ := h
  induction h using Leads.induct with
  | refl => exact mirrored_new options
  | setFile t file ih => exact ih.congr rfl rfl
  | setParsingModule t on ih => exact ih.congr rfl rfl
  | importSymbol t name type library _ ih => exact ih.importSymbol name type library
  | addClass t c classes happend _ ih => exact ih.appendClass happend
  | addMethod t cls p _ ih =>
    exact ih.congr (t.sameBases_register (.inClass cls) p).size (t.symbol?_register (.inClass cls) p)
  | addProcedure t p _ ih => exact ih.congr rfl rfl
  | compile t unit dialect hd ht ih =>
    have hstart := ih.unitStart dialect
    have hcoherent := Reached.coherent ⟨options, ht⟩
    have hevolved := (invariant_mirroring _).evolves (compile_evolves hd)
      (hstart.start (coherent_unitStart hcoherent dialect) fun _ => rfl)
    exact hevolved.mirrored hstart
  | watchExpression t id b node hb hd ht ih =>
    obtain ⟨u, hu, heq⟩ := watch_evolves hb hd
    have hcoherent := Reached.coherent ⟨options, ht⟩
    have hstart : Mirrored { t with isWatching := true } := ih.congr rfl rfl
    have hevolved := (invariant_mirroring _).evolves hu
      (hstart.start (coherent_watchStart hcoherent hb) (scope_watchSite t id b))
    rw [heq]
    exact (hevolved.mirrored hstart).congr rfl rfl

end Session

/-- At every moment the static members of classes are the same as their entries. -/
theorem Moment.mirrored {f : Frame} {s : Session} (h : Moment f s) : s.Mirrored := by
  cases h with
  | unit dialect hs hv =>
    have hstart := hs.mirrored.unitStart dialect
    have hvisited := (invariant_mirroring _).visits hv
      (hstart.start (Session.coherent_unitStart hs.coherent dialect) fun _ => rfl)
    exact hvisited.mirrored hstart
  | @watch s id b hs hb hv =>
    have hstart : Session.Mirrored { s with isWatching := true } := hs.mirrored.congr rfl rfl
    have hvisited := (invariant_mirroring _).visits hv
      (hstart.start (Session.coherent_watchStart hs.coherent hb) (s.scope_watchSite id b))
    exact hvisited.mirrored hstart

end Diglot
