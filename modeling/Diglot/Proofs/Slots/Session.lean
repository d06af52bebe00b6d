import Diglot.Proofs.Course.Session
import Diglot.Proofs.Slots.Procedure

/-! # No two variables share a place

* `Session.Traced W R s`: calls on a new session lead to `s`, those included that halted. `W` tells the
  symbols that watch expressions have declared, and `R` the classes that have been registered.
* `Balanced.serve`: a call keeps the places that are taken in agreement with the counters.
* `Traced.places`: what this says of the locals of procedures, of global variables, of static members
  and of boxes on the heap.

Registered classes bring the places of their members along, and watch expressions count on their own:
there places are shared (`registered_members_share`).
-/

set_option autoImplicit false

namespace Diglot

open Lowering

namespace Session

/-! ## Calls -/

/-- The symbols in `W`, and those that the request declares for a watch expression. -/
def watched (s : Session) : Request → (SymbolRef → Prop) → SymbolRef → Prop
  | .watchExpression id node, W => fun a =>
      W a ∨ s.symbol? a = none ∧ ((s.watchExpression id node).2.symbol? a).isSome
  | _, W => W

/-- The classes in `R`, and the one that the request registers. -/
def registered (s : Session) : Request → (Nat → Prop) → Nat → Prop
  | .addClass c, R => fun cls => R cls ∨ (s.addClass c).1 = some cls
  | _, R => R

/-- The session is the result of faultless calls on a new session. -/
def Traced (W : SymbolRef → Prop) (R : Nat → Prop) (s : Session) : Prop :=
  ∃ options requests, (new options).Calls Faultless requests s ∧
    (new options).tally watched requests (fun _ => False) = W ∧
      (new options).tally registered requests (fun _ => False) = R

variable {W V : SymbolRef → Prop} {R Q : Nat → Prop} {s t : Session}

namespace Traced

theorem new (options : Options) :
    Traced (fun _ => False) (fun _ => False) (Session.new options) := ⟨options, [], .refl, rfl, rfl⟩

theorem call (h : Traced W R s) (request : Request) (hfaultless : s.Faultless request) :
    Traced (s.watched request W) (s.registered request R) (s.serve request).2 := by
  obtain ⟨options, requests, hcalls, rfl, rfl⟩ := h
  refine ⟨options, _, hcalls.call request hfaultless, ?_, ?_⟩ <;>
    rw [tally_concat, ← hcalls.eq_serveAll]

theorem importSymbol (name : String) (type : Ty) (library : String) (h : Traced W R s) :
    Traced W R (s.importSymbol name type library).2 := h.call (.importSymbol name type library) trivial

theorem compile (unit : List Node) (dialect : Dialect)
    (hsafe : ∀ d, (s.compile unit dialect).1 ≠ .error (.defect d)) (h : Traced W R s) :
    Traced W R (s.compile unit dialect).2 := h.call (.compile unit dialect) hsafe

theorem watchExpression (id : Nat) (node : Node)
    (hsafe : ∀ d, (s.watchExpression id node).1 ≠ .error (.defect d)) (h : Traced W R s) :
    Traced (fun a => W a ∨ s.symbol? a = none ∧ ((s.watchExpression id node).2.symbol? a).isSome) R
      (s.watchExpression id node).2 := h.call (.watchExpression id node) hsafe

theorem reached (h : Traced W R s) : s.Reached := by
  obtain ⟨options, requests, hcalls, -⟩ := h
  exact ⟨options, requests, hcalls⟩

/-- What every faultless call keeps holds of all traced sessions. -/
@[elab_as_elim]
theorem induct
    {motive : (W : SymbolRef → Prop) → (R : Nat → Prop) → (s : Session) → Traced W R s → Prop}
    (new : ∀ options, motive (fun _ => False) (fun _ => False) (Session.new options) (.new options))
    (call : ∀ (W : SymbolRef → Prop) (R : Nat → Prop) (s : Session) (request : Request)
      (hs : Traced W R s) {ht}, s.Faultless request → motive W R s hs →
        motive (s.watched request W) (s.registered request R) (s.serve request).2 ht)
    (h : Traced W R s) : motive W R s h := by
  obtain ⟨options, requests, hcalls, rfl, rfl⟩ := h
  induction hcalls with
  | refl => exact new options
  | @call requests s request hcalls hfaultless ih =>
    have ht : Traced _ _ (s.serve request).2 :=
      ⟨options, _, hcalls.call request hfaultless, rfl, rfl⟩
    change motive _ _ _ ht
    revert ht
    rw [tally_concat, tally_concat, ← hcalls.eq_serveAll]
    exact fun _ => call _ _ s request ⟨options, requests, hcalls, rfl, rfl⟩ hfaultless ih

end Traced

/-- What holds of the places of variables between two calls. -/
structure Balanced (W : SymbolRef → Prop) (R : Nat → Prop) (s : Session) : Prop where
  watched : ∀ a, W a → (s.symbol? a).isSome
  registered : ∀ cls, R cls → (s.classes.get? cls).isSome
  frames : s.AllFilled W
  shared : s.Shared W R
  idle : s.counters.locals = 0

theorem Balanced.congr (h : Balanced W R s) (hc : t.classes = s.classes)
    (hsymbols : t.symbol? = s.symbol?) (howners : t.procedureOf? = s.procedureOf?)
    (hprocs : t.procedure? = s.procedure?) {n : Nat} (hn : t.counters = { s.counters with units := n }) :
    Balanced W R t := by
  refine ⟨?_, ?_, h.frames.congr hsymbols howners hprocs, h.shared.congr hsymbols ?_ ?_ ?_, ?_⟩
  · rw [hsymbols]
    exact h.watched
  · rw [hc]
    exact h.registered
  · rw [hn]
  · rw [hn]
  · rw [hn]
  · rw [hn]
    exact h.idle

theorem AllFilled.agree (h : AllFilled W s) (hWV : ∀ a, (s.symbol? a).isSome → (V a ↔ W a)) :
    AllFilled V s := by
  intro r p hp hentry hdefined
  refine (h r p hp hentry hdefined).congr fun a x => ?_
  unfold IsLocalOf
  refine and_congr_right fun hx => and_congr_right fun _ => not_congr (hWV a ?_)
  rw [hx]
  rfl

theorem Shared.agree (h : Shared W R s) (hWV : ∀ a, (s.symbol? a).isSome → (V a ↔ W a)) :
    Shared V R s := by
  refine ⟨h.globals.mono (fun a x ⟨hx, hid, hfn, hscope, hnot⟩ => ?_) (Nat.le_refl _), h.statics,
    h.boxes⟩
  refine ⟨hx, hid, hfn, hscope, fun ha => hnot ((hWV a ?_).mpr ha)⟩
  rw [hx]
  rfl

theorem balanced_new (options : Options) :
    Balanced (fun _ => False) (fun _ => False) (new options) := by
  have hsymbol (a : SymbolRef) : (new options).symbol? a = none := by
    obtain ⟨owner, i⟩ := a
    cases owner with
    | block id => rfl
    | cls cls =>
      rw [symbol?_cls]
      cases hc : (new options).classes.get? cls with
      | none => rfl
      | some c =>
        have hmem : c ∈ Primitive.all.map fun p => ({ name := p.name, isPrimitive := true } : Class) :=
          List.mem_toArray.mp (Array.mem_of_getElem? hc)
        obtain ⟨p, _, rfl⟩ := List.mem_map.mp hmem
        rfl
  refine ⟨fun _ h => h.elim, fun _ h => h.elim, fun r p hp hentry ⟨owner, howner⟩ => ?_,
    ⟨.ofNone fun a x hx => ?_, fun cls _ => .ofNone fun a x hx => ?_, .ofNone fun a x hx => ?_⟩, rfl⟩
  · cases owner <;> cases howner
  · cases (hsymbol a).symm.trans hx.1
  · cases (hsymbol a).symm.trans hx.1
  · cases (hsymbol a).symm.trans hx.1

/-! ## Registration -/

theorem Balanced.register (h : Balanced W R s) (hs : s.Coherent) (scope : Scope) (p : Procedure) :
    Balanced W R (s.register scope p) := by
  have hsymbols := s.symbol?_register scope p
  have howners : (s.register scope p).procedureOf? = s.procedureOf? := by
    refine procedureOf?_of_headers ?_
    funext id
    simp only [header?, block?, blocks_register]
  refine ⟨?_, fun cls hcls => (s.grows_register scope p).classes cls (h.registered cls hcls),
    h.frames.keeps hs ?_ (fun r q hq => procedure?_register_of_some hq scope p)
      fun r => sameLocals_of_tables hsymbols howners, h.shared.congr hsymbols ?_ ?_ ?_, ?_⟩
  · rw [hsymbols]
    exact h.watched
  · rw [howners]
    exact fun _ _ hr => hr
  · rw [counters_register]
  · rw [counters_register]
  · rw [counters_register]
  · rw [counters_register]
    exact h.idle

/-- The symbols of a class that is registered are new, and all others stay. -/
theorem Balanced.addClass (h : Balanced W R s) (hs : s.Coherent) {c : Class} {classes : ClassTable}
    (happ : s.classes.append? c = some classes) :
    Balanced W (fun cls => R cls ∨ some s.classes.size = some cls) { s with classes } := by
  have hgrows := grows_appendClass happ
  have hold {cls : Nat} (hcls : ¬ some s.classes.size = some cls) (i : Nat) :
      ({ s with classes } : Session).symbol? ⟨.cls cls, i⟩ = s.symbol? ⟨.cls cls, i⟩ := by
    rw [symbol?_cls, symbol?_cls, ClassTable.get?_append? happ, if_neg fun heq => hcls (congrArg some heq.symm)]
  refine ⟨fun a ha => ?_, ?_, h.frames.keeps hs (fun _ _ hr => hr) (fun r q hq => ?_) (fun r a x => ?_),
    ⟨?_, fun cls hcls => ?_, ?_⟩, h.idle⟩
  · obtain ⟨x, hx⟩ := Option.isSome_iff_exists.mp (h.watched a ha)
    rw [hgrows.symbols a x hx]
    rfl
  · rintro cls (hcls | hcls)
    · exact hgrows.classes cls (h.registered cls hcls)
    · cases hcls
      rw [ClassTable.get?_append? happ, if_pos rfl]
      rfl
  · obtain ⟨owner, i⟩ := r
    cases owner with
    | none => exact hq
    | some cls =>
      rw [procedure?_some] at hq ⊢
      obtain ⟨d, hd, hq⟩ := Option.bind_eq_some_iff.mp hq
      rw [get?_append?_of_some happ hd]
      exact hq
  · obtain ⟨owner, i⟩ := a
    cases owner with
    | block id => exact Iff.rfl
    | cls cls =>
      constructor
      · intro hx
        cases hx.2.1
      · intro hx
        cases hx.2.1
  · refine h.shared.globals.mono (fun ⟨owner, i⟩ x ⟨hx, ⟨id, hid⟩, hrest⟩ => ?_) (Nat.le_refl _)
    cases hid
    exact ⟨hx, ⟨id, rfl⟩, hrest⟩
  · refine (h.shared.statics cls fun hR => hcls (.inl hR)).mono
      (fun ⟨owner, i⟩ x ⟨hx, howner, hstatic⟩ => ?_) (Nat.le_refl _)
    cases howner
    rw [hold fun hnew => hcls (.inr hnew)] at hx
    exact ⟨hx, rfl, hstatic⟩
  · refine h.shared.boxes.mono (fun ⟨owner, i⟩ x ⟨hx, hheap, hblock, hcls⟩ => ?_) (Nat.le_refl _)
    cases owner with
    | block id => exact ⟨hx, hheap, hblock, fun _ heq => by cases heq⟩
    | cls cls =>
      rw [hold fun hnew => hcls cls rfl (.inr hnew)] at hx
      exact ⟨hx, hheap, hblock, fun other hother hR => hcls other hother (.inl hR)⟩

theorem procedureOf?_addBlock (s : Session) (kind : BlockKind) (dialect : Dialect)
    (parent : Option Nat) : (s.addBlock kind dialect parent).procedureOf? = s.procedureOf? := by
  funext owner
  rw [procedureOf?_of_new (header?_addBlock s kind dialect parent)]
  split
  · next howner =>
    rw [howner]
    unfold procedureOf? block?
    dsimp only
    rw [Array.getElem?_size]
    rfl
  · rfl

theorem Balanced.addBlock (h : Balanced W R s) (kind : BlockKind) (dialect : Dialect)
    (parent : Option Nat) : Balanced W R (s.addBlock kind dialect parent) := by
  have hnew := header?_addBlock s kind dialect parent
  have hc : (s.addBlock kind dialect parent).classes = s.classes := by cases parent <;> rfl
  have hp : (s.addBlock kind dialect parent).procedures = s.procedures := by cases parent <;> rfl
  exact h.congr hc (symbol?_of_new hnew hc) (procedureOf?_addBlock s kind dialect parent)
    (procedure?_congr hc hp) (counters_addBlock s kind dialect parent)

/-- An imported symbol is a global variable of the first block. -/
theorem Balanced.enterGlobal (h : Balanced W R s) (hs : s.Coherent) {x : Symbol}
    (hoffset : x.offset = s.counters.globals) (hregion : x.region = .stack) :
    Balanced W R
      (({ s with counters := { s.counters with globals := s.counters.globals + 1 } } : Session).enterLocal
        0 x) := by
  let u : Session := { s with counters := { s.counters with globals := s.counters.globals + 1 } }
  have hcounters : s.Grows u := grows_of_tables rfl rfl rfl
  have hgrows := hcounters.trans (grows_enterLocal u 0 x)
  have hentry (a : SymbolRef) (y : Symbol) (hy : (u.enterLocal 0 x).symbol? a = some y) :
      s.symbol? a = some y ∨
        a = s.next (.block 0) ∧ y = { x with position := (s.next (.block 0)).index } :=
    symbol?_enterLocal (s := u) hy
  have howners : (u.enterLocal 0 x).procedureOf? = s.procedureOf? := procedureOf?_enterLocal u 0 x
  refine ⟨fun a ha => ?_, h.registered, h.frames.keeps hs ?_ (fun r q hq => hq) fun r a y => ?_,
    ⟨?_, fun cls hcls => ?_, ?_⟩, h.idle⟩
  · obtain ⟨y, hy⟩ := Option.isSome_iff_exists.mp (h.watched a ha)
    rw [hgrows.symbols a y hy]
    rfl
  · rw [howners]
    exact fun _ _ hr => hr
  · -- The first block belongs to no procedure.
    refine ⟨fun ⟨hy, hr, hnot⟩ => ?_, fun hy => hy.grows hgrows⟩
    rw [howners] at hr
    rcases hentry a y hy with hy | ⟨rfl, _⟩
    · exact ⟨hy, hr, hnot⟩
    · change s.procedureOf? (.block 0) = some r at hr
      rw [procedureOf?_eq] at hr
      obtain ⟨hd, hzero, hproc⟩ := Option.bind_eq_some_iff.mp hr
      rw [hs.first hd hzero] at hproc
      cases hproc
  · refine h.shared.globals.extend ofNat_injective (s.next (.block 0)) fun a y ⟨hy, hrest⟩ => ?_
    rcases hentry a y hy with hy | ⟨ha, rfl⟩
    · exact .inl ⟨hy, hrest⟩
    · exact .inr ⟨ha, hoffset⟩
  · refine (h.shared.statics cls hcls).mono (fun a y ⟨hy, howner, hstatic⟩ => ?_) (Nat.le_refl _)
    rcases hentry a y hy with hy | ⟨rfl, _⟩
    · exact ⟨hy, howner, hstatic⟩
    · cases howner
  · refine h.shared.boxes.mono (fun a y ⟨hy, hheap, hrest⟩ => ?_) (Nat.le_refl _)
    rcases hentry a y hy with hy | ⟨_, rfl⟩
    · exact ⟨hy, hheap, hrest⟩
    · cases hregion.symm.trans hheap

theorem Balanced.importSymbol (h : Balanced W R s) (hs : s.Coherent) (name : String) (type : Ty)
    (library : String) : Balanced W R (s.importSymbol name type library).2 := by
  unfold Session.importSymbol
  dsimp only
  split
  · exact (h.addBlock .global .associative none).enterGlobal (hs.addFirst _ _) rfl rfl
  · exact h.enterGlobal hs rfl rfl

/-! ## Units -/

theorem Balanced.unitStart (h : Balanced W R s) (dialect : Dialect) :
    Balanced W R (s.unitStart dialect).2 := by
  have hquiet : Balanced W R { s with isWatching := false } := h.congr rfl rfl rfl rfl rfl
  have hopen : Balanced W R ({ s with isWatching := false }.openUnit dialect).2 := by
    unfold Session.openUnit
    split
    · split
      · exact hquiet.addBlock .global dialect none
      · have hheader := header?_modifyBlock (g := fun b => { b with dialect }) (fun _ => rfl)
          { s with isWatching := false } 0
        exact hquiet.congr rfl (symbol?_of_tables rfl hheader) (procedureOf?_of_headers hheader) rfl rfl
    · exact hquiet.addBlock .global dialect (some 0)
  exact hopen.congr rfl rfl rfl rfl rfl

theorem Balanced.compile (h : Balanced W R s) (hs : s.Coherent) {unit : List Node}
    {dialect : Dialect} (hd : ∀ d, (s.compile unit dialect).1 ≠ .error (.defect d)) :
    Balanced W R (s.compile unit dialect).2 := by
  have hstart := h.unitStart dialect
  obtain ⟨hcoherent, hplaced⟩ := coherent_unitStart hs dialect
  have hmode := s.isWatching_unitStart dialect
  have hevolves := compile_evolves hd
  have htells : (s.unitStart dialect).2.Foretells false W := by
    intro a ha
    refine ⟨fun hw => ?_, nofun⟩
    have hsome := hstart.watched a hw
    rw [ha] at hsome
    cases hsome
  have hafter := (invariant_shared false W R).evolves hevolves
    ⟨hmode, htells, hstart.registered, hstart.shared, fun _ => hstart.idle⟩
  have hframe : InFrame false W (s.unitSite dialect) (s.unitStart dialect).2 :=
    ⟨hcoherent, hplaced, hmode, htells, hstart.frames, fun _ r hr => by cases hr⟩
  have hcourse : Course False Anything (unitFrame (s.unitStart dialect).1 .global dialect unit)
      { session := (s.unitStart dialect).2 } (lowerCode unit) :=
    .lowerCode (fun n _ => steady n) False.elim False.elim
  have hinner : InFrame false W (unitFrame (s.unitStart dialect).1 .global dialect unit)
      (s.unitStart dialect).2 := hframe.site rfl
  have hholds := hcourse.holds (fun hw => by cases hw) hinner
  have hfilled : (s.compile unit dialect).2.AllFilled W := by
    rw [compile_eq] at hd ⊢
    revert hholds hd
    rcases lowerCode unit _ _ with ⟨_, t⟩ | ⟨_ | d, t⟩
    · exact fun _ ht => ht.inFrame.done
    · exact fun _ ht => ht
    · exact fun hd _ => absurd rfl (hd d)
  refine ⟨fun a ha => ?_, hafter.registered, hfilled, hafter.shared, hafter.idle (.inr rfl)⟩
  obtain ⟨x, hx⟩ := Option.isSome_iff_exists.mp (hstart.watched a ha)
  rw [hevolves.grows.symbols a x hx]
  rfl

/-! ## Watch expressions -/

/-- While a watch expression is lowered, a reference that is free stands for a symbol of its own. -/
theorem Balanced.watch {u : Session} (h : Balanced W R s) (hs : s.Coherent) {id : Nat} {b : Block}
    {node : Node} (hb : s.block? id = some b)
    (hd : ∀ d, (s.watchExpression id node).1 ≠ .error (.defect d))
    (hu : (s.watchExpression id node).2 = u) :
    s.Grows u ∧ u.AllFilled (fun a => W a ∨ s.symbol? a = none) ∧
      u.Shared (fun a => W a ∨ s.symbol? a = none) R ∧ u.counters.locals = 0 := by
  let free : SymbolRef → Prop := fun a => W a ∨ s.symbol? a = none
  let start : Session := { s with isWatching := true }
  have hfree (a : SymbolRef) (ha : (s.symbol? a).isSome) : free a ↔ W a :=
    or_iff_left (Option.isSome_iff_ne_none.mp ha)
  have htells : start.Foretells true free := fun a ha => ⟨fun _ => rfl, fun _ => .inr ha⟩
  have hfilled : start.AllFilled free := (h.frames.agree hfree).congr rfl rfl rfl
  have hshared : start.Shared free R := (h.shared.agree hfree).congr rfl rfl rfl rfl
  have hstart : s.Grows start := grows_of_tables rfl rfl rfl
  obtain ⟨hcoherent, hplaced⟩ := coherent_watchStart hs hb
  obtain ⟨v, hv, heq⟩ := watch_evolves hb hd
  have hend : v.Grows u := by
    rw [← hu, heq]
    exact grows_of_tables rfl rfl rfl
  have hafter := (invariant_shared true free R).evolves hv
    ⟨rfl, htells, h.registered, hshared, fun _ => h.idle⟩
  have hframe : InFrame true free (s.watchSite id b) start :=
    ⟨hcoherent, hplaced, rfl, htells, hfilled, nofun⟩
  have hcourse := Composed.lowerWatch (w := true) (D := False)
    (P := Instruction.IsWatch) node (fun _ hi => hi)
    (s.watchSite id b) { session := start } False.elim
  have hholds := hcourse.holds (w := true) (W := free) (fun _ hall => by
    rcases hall (.bare .ret) with hplain | ⟨hret, _⟩
    · exact absurd hplain.1 (by decide)
    · cases hret) hframe
  refine ⟨(hstart.trans hv.grows).trans hend, ?_, ?_, ?_⟩
  · rw [← hu]
    rw [watchExpression_eq hb] at hd ⊢
    revert hholds hd
    rcases lowerWatch node _ _ with ⟨_, t⟩ | ⟨_ | d, t⟩
    · exact fun _ ht => ht.inFrame.done.congr rfl rfl rfl
    · exact fun _ ht => AllFilled.congr ht rfl rfl rfl
    · exact fun hd _ => absurd rfl (hd d)
  · rw [← hu, heq]
    exact hafter.shared.congr rfl rfl rfl rfl
  · rw [← hu, heq]
    exact hafter.idle (.inl rfl)

theorem Balanced.watchExpression (h : Balanced W R s) (hs : s.Coherent) {id : Nat} {node : Node}
    (hd : ∀ d, (s.watchExpression id node).1 ≠ .error (.defect d))
    (ht : (s.watchExpression id node).2 = t) :
    Balanced (fun a => W a ∨ s.symbol? a = none ∧ (t.symbol? a).isSome) R t := by
  cases hb : s.block? id with
  | none =>
    have hst : s = t := by
      rw [← ht]
      unfold Session.watchExpression
      rw [hb]
    subst hst
    have hsame : (fun a => W a ∨ s.symbol? a = none ∧ (s.symbol? a).isSome) = W := by
      funext a
      refine propext (or_iff_left fun ⟨hnone, hsome⟩ => ?_)
      rw [hnone] at hsome
      cases hsome
    rw [hsame]
    exact h
  | some b =>
    obtain ⟨hgrows, hframes, hshared, hidle⟩ := h.watch hs hb hd ht
    have hsame (a : SymbolRef) (ha : (t.symbol? a).isSome) :
        (W a ∨ s.symbol? a = none ∧ (t.symbol? a).isSome) ↔ W a ∨ s.symbol? a = none :=
      or_congr_right (and_iff_left ha)
    refine ⟨?_, fun cls hcls => hgrows.classes cls (h.registered cls hcls), hframes.agree hsame,
      hshared.agree hsame, hidle⟩
    rintro a (hw | ⟨_, hsome⟩)
    · obtain ⟨x, hx⟩ := Option.isSome_iff_exists.mp (h.watched a hw)
      rw [hgrows.symbols a x hx]
      rfl
    · exact hsome

/-! ## All calls -/

theorem Balanced.serve (hb : Balanced W R s) (hs : s.Coherent) (request : Request)
    (hfaultless : s.Faultless request) :
    Balanced (s.watched request W) (s.registered request R) (s.serve request).2 := by
  cases request with
  | setFile file => exact hb.congr rfl rfl rfl rfl rfl
  | setParsingModule on => exact hb.congr rfl rfl rfl rfl rfl
  | importSymbol name type library => exact hb.importSymbol hs name type library
  | addClass c =>
    change Balanced W (fun cls => R cls ∨ (s.addClass c).1 = some cls) (s.addClass c).2
    unfold Session.addClass
    cases happ : s.classes.append? c with
    | some classes => exact hb.addClass hs happ
    | none =>
      have hsame : (fun cls => R cls ∨ none = some cls) = R := by
        funext cls
        exact propext (or_iff_left nofun)
      rw [hsame]
      exact hb
  | addMethod cls p =>
    change Balanced W R (s.addMethod cls p).2
    unfold Session.addMethod
    split
    · exact hb.register hs (.inClass cls) p
    · exact hb
  | addProcedure p => exact hb.register hs .global p
  | compile unit dialect => exact hb.compile hs hfaultless
  | watchExpression id node => exact hb.watchExpression hs hfaultless rfl

theorem Traced.balanced (h : Traced W R s) : Balanced W R s := by
  induction h using Traced.induct with
  | new options => exact balanced_new options
  | call W R s request hs hfaultless ih => exact ih.serve hs.reached.coherent request hfaultless

/-- Slots never collide. The locals of every procedure that was compiled to the end take the places
`-13`, `-14`, … of its frame, each of them once and the parameters first. Global variables, imported ones
included, have places of their own below the count of globals. So have the static members of a class that
was compiled, and the symbols on the heap but for mirrors of static members and members of registered
classes. Between calls no place in a frame is taken. -/
theorem Traced.places (h : Traced W R s) :
    s.AllFilled W ∧ s.Shared W R ∧ s.counters.locals = 0 :=
  ⟨h.balanced.frames, h.balanced.shared, h.balanced.idle⟩

/-- Two static members on the heap, and a function with another one and a language block inside. -/
def crowdedUnit : List Node :=
  let assign (name : String) : Node := .assign (bareName name) (.literal .int "1" .nil) .nil
  let param (name : String) : Parameter := ⟨name, .var, none, .nil⟩
  let static (name : String) : Variable :=
    { name, type := .var, value := none, isStatic := true, access := .isPublic, region := .heap
      span := .nil }
  [.classDecl
    { name := "C", base := none, members := [static "n", static "m"], methods := [], attributes := []
      span := .nil },
   .function (generated "f" [param "a", param "b"]
    [assign "x", .function (generated "g" [param "c"] [assign "y"]),
     .block .imperative [assign "z"] .nil, assign "w"])]

/-- The functions are filled, also after a unit has halted in another one, a symbol has been imported
and the value of an expression has been watched in the body of the outer one. -/
theorem crowdedUnit_places :
    let s := ((new {}).compile crowdedUnit .associative).2
    let t := (s.compile [.function (generated "h" [] [.breakLoop .nil])] .imperative).2
    let u := (t.importSymbol "v" .var "lib").2
    let v := (u.watchExpression 2 (.literal .int "2" .nil)).2
    v.procedures.procedures.map (fun p => (p.name, p.entry, p.locals)) =
        #[("f", some 0, 5), ("g", some 0, 2), ("h", none, 0)] ∧
      ∃ W R, v.Traced W R ∧ v.AllFilled W ∧ v.Shared W R ∧ v.counters.locals = 0 := by
  intro s t u v
  have hused : (new {}).Used := .new {}
  have hsused : s.Used := .compile _ .associative hused
  have huused : u.Used := .importSymbol "v" .var "lib" (.compile _ .imperative hsused)
  have hs : Traced (fun _ => False) (fun _ => False) s :=
    .compile _ .associative (hused.fit.compile_safe _ _).1 (.new {})
  have ht : Traced (fun _ => False) (fun _ => False) t :=
    .compile _ .imperative (hsused.fit.compile_safe _ _).1 hs
  have hu : Traced (fun _ => False) (fun _ => False) u := .importSymbol "v" .var "lib" ht
  have hv : Traced _ _ v := .watchExpression 2 _ (huused.fit.watch_safe _ _).1 hu
  exact ⟨by decide +kernel, _, _, hv, hv.places⟩

/-- The static members of a registered class keep the places that they come with, and the variable of
a watch expression has the place of a global variable. -/
theorem registered_members_share :
    let member (name : String) : Symbol := { name, type := .var, isStatic := true }
    let s := ((new {}).addClass (Class.filled { name := "R" } [member "a", member "b"] [])).2
    let t := (((new {}).compile [.assign (bareName "x") (.literal .int "1" .nil) .nil] .associative).2
      |>.watchExpression 0 (.literal .int "2" .nil)).2
    (s.Used ∧ ∃ a b x y, a ≠ b ∧ s.IsStaticOf 12 a x ∧ s.IsStaticOf 12 b y ∧ x.offset = y.offset) ∧
      t.Used ∧ ∃ a b x y, a ≠ b ∧ t.IsGlobal (fun _ => False) a x ∧ t.IsGlobal (fun _ => False) b y ∧
        x.offset = y.offset := by
  intro member s t
  have hs : s.Used := .addClass { name := "R" } [member "a", member "b"] [] nofun (.new {})
  have ht : t.Used := .watchExpression 0 _ (.compile _ .associative (.new {}))
  refine ⟨⟨hs, ⟨.cls 12, 0⟩, ⟨.cls 12, 1⟩, member "a", { member "b" with position := 1 }, by decide,
    ⟨?_, rfl, rfl⟩, ⟨?_, rfl, rfl⟩, rfl⟩, ht, ⟨.block 0, 0⟩, ⟨.block 0, 1⟩, ?_⟩
  · decide +kernel
  · decide +kernel
  · have hglobal (i : Nat) (hi : (t.symbol? ⟨.block 0, i⟩).map
        (fun x => (x.offset, x.function, x.classScope)) = some (0, none, none)) :
        ∃ x, t.IsGlobal (fun _ => False) ⟨.block 0, i⟩ x ∧ x.offset = 0 := by
      obtain ⟨x, hx, heq⟩ := Option.map_eq_some_iff.mp hi
      simp only [Prod.mk.injEq] at heq
      exact ⟨x, ⟨hx, ⟨0, rfl⟩, heq.2.1, heq.2.2, id⟩, heq.1⟩
    obtain ⟨hfirst, hsecond⟩ :
        (t.symbol? ⟨.block 0, 0⟩).map (fun x => (x.offset, x.function, x.classScope)) = some (0, none, none) ∧
        (t.symbol? ⟨.block 0, 1⟩).map (fun x => (x.offset, x.function, x.classScope)) = some (0, none, none) := by
      decide +kernel
    obtain ⟨x, hx, hxo⟩ := hglobal 0 hfirst
    obtain ⟨y, hy, hyo⟩ := hglobal 1 hsecond
    exact ⟨x, y, by decide, hx, hy, hxo.trans hyo.symm⟩

end Session

end Diglot
