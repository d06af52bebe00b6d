import Diglot.Proofs.Course.Session
import Diglot.Proofs.Globals.Unit
import Diglot.Proofs.Spare.Session

/-! # Variables of earlier units

Every unit but the first one is compiled into a block of its own below the first block. So it sees what the
first unit assigns or declares at its top level (`Used.resolve_assigned`), but not what other units put into
their own blocks (`sibling_unbound`).
-/

set_option autoImplicit false

namespace Diglot

open Lowering

namespace Session

/-! ## Calls only extend tables -/

theorem extends_addBlock (s : Session) (kind : BlockKind) (dialect : Dialect) (parent : Option Nat) :
    s.Extends (s.addBlock kind dialect parent) :=
  extends_of_new rfl (header?_addBlock s kind dialect parent)

theorem extends_unitStart (s : Session) (dialect : Dialect) : s.Extends (s.unitStart dialect).2 := by
  let quiet : Session := { s with isWatching := false }
  have hquiet : s.Extends quiet := extends_of_headers rfl
  have hopen : quiet.Extends (quiet.openUnit dialect).2 := by
    unfold openUnit
    split
    · split
      · exact quiet.extends_addBlock .global dialect none
      · apply extends_of_headers
        apply header?_modifyBlock
        exact fun _ => rfl
    · exact quiet.extends_addBlock .global dialect (some 0)
  exact (hquiet.trans hopen).trans (extends_of_headers rfl)

theorem Used.extends_compile {s : Session} (h : s.Used) (unit : List Node) (dialect : Dialect) :
    (s.unitStart dialect).2.Extends (s.compile unit dialect).2 :=
  (compile_evolves (h.no_defect.1 unit dialect)).extends

theorem Later.extends {s t : Session} (h : s.Later t) (hs : s.Used) : s.Extends t := by
  induction h using Leads.induct with
  | refl => exact .refl s
  | setFile t file ih => exact ih.trans (extends_of_headers rfl)
  | setParsingModule t on ih => exact ih.trans (extends_of_headers rfl)
  | importSymbol t name type library _ ih =>
    apply ih.trans
    have hstart : t.Extends (if t.blocks.isEmpty then t.addBlock .global .associative none else t) := by
      split
      · exact t.extends_addBlock _ _ _
      · exact .refl t
    unfold Session.importSymbol
    generalize (if t.blocks.isEmpty then t.addBlock .global .associative none else t) = u at hstart ⊢
    have hcounters (counters : Counters) : u.Extends { u with counters } := extends_of_headers rfl
    exact (hstart.trans (hcounters _)).trans (extends_enterLocal _ 0 _)
  | addClass t c classes _ _ ih => exact ih.trans (extends_of_headers rfl)
  | addMethod t cls p _ ih => exact ih.trans (extends_of_headers rfl)
  | addProcedure t p _ ih => exact ih.trans (extends_of_headers rfl)
  | compile t unit dialect _ ht ih =>
    have hused : t.Used := Later.used ht hs
    exact (ih.trans (t.extends_unitStart dialect)).trans (hused.extends_compile unit dialect)
  | watchExpression t id b node hb _ ht ih =>
    apply ih.trans
    have hused : t.Used := Later.used ht hs
    obtain ⟨u, hu, heq⟩ := watch_evolves hb (hused.no_defect.2.1 id node)
    have hwatching : t.Extends { t with isWatching := true } := extends_of_headers rfl
    rw [heq]
    exact (hwatching.trans hu.extends).trans (extends_of_headers rfl)

theorem Used.indexed {s : Session} (h : s.Used) : s.Indexed := by
  obtain ⟨options, hlater⟩ := h
  apply (Later.extends hlater (.new options)).indexed
  intro id hd hs
  cases hs

/-! ## Where units begin -/

theorem Fit.first_parent {s : Session} (h : s.Fit) (hsize : 0 < s.blocks.size) :
    ∃ hd, s.header? 0 = some hd ∧ hd.parent = none := by
  have hblock : s.block? 0 = some s.blocks[0] := Array.getElem?_eq_getElem hsize
  have hheader := header?_of_block? hblock
  refine ⟨_, hheader, ?_⟩
  cases hparent : s.blocks[0].header.parent with
  | none => rfl
  | some p => exact absurd (h.tidy.parents 0 _ p hheader hparent) (Nat.not_lt_zero p)

theorem unitStart_first {s : Session} (hunits : s.counters.units = 0) (dialect : Dialect) :
    (s.unitStart dialect).1 = 0 := by
  show (Session.openUnit { s with isWatching := false } dialect).1 = 0
  unfold openUnit
  rw [if_pos hunits]
  split <;> rfl

theorem site_unitSite (s : Session) (dialect : Dialect) :
    (s.unitSite dialect).site = s.unitSite dialect := rfl

theorem isParsingModule_unitStart (s : Session) (dialect : Dialect) :
    (s.unitStart dialect).2.isParsingModule = s.isParsingModule := by
  show (Session.openUnit { s with isWatching := false } dialect).2.isParsingModule = _
  unfold openUnit
  split
  · split <;> rfl
  · rfl

/-- The block of a further unit is empty and lies below the first one. -/
theorem header?_unitStart {s : Session} (hunits : s.counters.units ≠ 0) (dialect : Dialect) :
    (s.unitStart dialect).2.header? (s.unitStart dialect).1 = some ⟨some 0, none, {}⟩ := by
  have hnew : ({ s with isWatching := false }.addBlock .global dialect (some 0)).header? s.blocks.size =
      some ⟨some 0, none, {}⟩ := by
    rw [header?_addBlock]
    exact if_pos rfl
  rw [unitStart_further hunits]
  exact hnew

/-- A unit begins in the first block or in a child of it. -/
theorem Used.atTop_unitStart {s : Session} (h : s.Used) (dialect : Dialect) :
    AtTop (s.unitStart dialect).1 (s.unitStart dialect).2 := by
  have hquiet : { s with isWatching := false }.Fit := h.fit.congr rfl rfl rfl rfl
  obtain ⟨hfit, hlt, _⟩ := hquiet.openUnit dialect
  refine ⟨s.isWatching_unitStart dialect, ⟨?_, fun hne => ?_⟩, ?_⟩
  · exact hfit.first_parent (Nat.lt_of_le_of_lt (Nat.zero_le _) hlt)
  · have hunits : s.counters.units ≠ 0 := fun hzero => hne (unitStart_first hzero dialect)
    exact ⟨_, header?_unitStart hunits dialect, rfl⟩
  · exact (s.extends_unitStart dialect).indexed h.indexed

/-- A further unit begins with an empty block, so that it inherits all global variables. -/
theorem Used.inherits_unitStart {s : Session} (h : s.Used) (hunits : s.counters.units ≠ 0)
    (hparse : s.isParsingModule = false) (dialect : Dialect) {name : String} (hname : s.HasGlobal name) :
    Inherits (s.unitStart dialect).1 name (s.unitStart dialect).2 := by
  have htop := h.atTop_unitStart dialect
  refine ⟨htop.isWatching, ?_, htop.isTop, htop.indexed, hname.extends (s.extends_unitStart dialect), ?_⟩
  · rw [isParsingModule_unitStart, hparse]
  · intro i x hx
    rw [symbol?_block, header?_unitStart hunits] at hx
    cases hx

/-- A further unit that does not declare the name at its top level inherits it to the end. -/
theorem Used.inherits_compile {s : Session} (h : s.Used) (hunits : s.counters.units ≠ 0)
    (hparse : s.isParsingModule = false) {unit : List Node} (dialect : Dialect) {name : String}
    (hname : s.HasGlobal name) (hunit : name ∉ Node.allNames Node.declaredName? unit) :
    Inherits (s.unitStart dialect).1 name (s.compile unit dialect).2 := by
  have hown : (s.unitStart dialect).1 ≠ 0 := by
    rw [unitStart_further hunits]
    have hsize := h.fit.filled hunits
    exact Nat.ne_of_gt hsize
  have hcode : Maintains (Inherits (s.unitStart dialect).1 name)
      (unitFrame (s.unitStart dialect).1 .global dialect unit) (lowerCode unit) :=
    .lowerCode hown rfl rfl hunit
  have hend := hcode { session := (s.unitStart dialect).2 }
    (h.inherits_unitStart hunits hparse dialect hname)
  have hdefect := h.no_defect.1 unit dialect
  rw [compile_eq] at hdefect ⊢
  revert hend hdefect
  cases lowerCode unit _ _ with
  | ok _ t => exact fun ht _ => ht
  | error e t =>
    cases e with
    | halt d => exact fun ht _ => ht
    | defect d => exact fun _ hdefect => absurd rfl (hdefect d)

/-! ## Reading -/

/-- Before a symbol of a block stand others. -/
theorem symbol?_of_le {s : Session} {id i j : Nat} {x : Symbol} (hx : s.symbol? ⟨.block id, i⟩ = some x)
    (hle : j ≤ i) : ∃ y, s.symbol? ⟨.block id, j⟩ = some y := by
  rw [symbol?_block] at hx ⊢
  obtain ⟨hd, hs, hget⟩ := Option.bind_eq_some_iff.mp hx
  have hlt : i < hd.symbols.symbols.size := (Array.getElem?_eq_some_iff.mp hget).1
  rw [hs]
  exact ⟨_, Array.getElem?_eq_getElem (Nat.lt_of_le_of_lt hle hlt)⟩

/-- Whatever the first unit assigns or declares at its top level can be read at the top level of every
later unit that does not declare the name there itself. At any moment `u` in the course of the later unit
the name stands for a symbol that was in the first block before, so that reading it is not reported. -/
theorem Used.resolve_assigned {s t : Session} (hs : s.Used) (hunits : s.counters.units = 0)
    {first : List Node} {dialect : Dialect} (hok : (s.compile first dialect).1.toBool = true)
    {name : String} (hname : name ∈ Node.allNames Node.assignedName? first)
    (ht : (s.compile first dialect).2.Later t) (hparse : t.isParsingModule = false) {unit : List Node}
    (hunit : name ∉ Node.allNames Node.declaredName? unit) {other : Dialect} {u : Session}
    (hu : Evolves (fun _ => True) (t.unitSite other) (t.unitStart other).2 u)
    (hend : u.Extends (t.compile unit other).2) {f : Frame} (hf : f.site = t.unitSite other) {v : Sight}
    (hv : sightIn f u = .ok v) :
    ∃ i x, v.resolve name = .found ⟨.block 0, i⟩ ∧ v.rootTarget name ≠ .unbound ∧
      t.symbol? ⟨.block 0, i⟩ = some x ∧ x.name = name := by
  have hused : t.Used := ht.used (.compile first dialect hs)
  have hzero := unitStart_first hunits dialect
  have hstart : AtTop 0 (s.unitStart dialect).2 := hzero ▸ hs.atTop_unitStart dialect
  have hglobal := (hasGlobal_compile hstart hzero hok hname).extends (ht.extends (.compile first dialect hs))
  obtain ⟨rfl, rfl, hblocks⟩ := eq_of_sightIn hv
  have hblock : v.frame.block = (t.unitStart other).1 := congrArg Frame.block hf
  have hscope : v.frame.scope = .global := congrArg Frame.scope hf
  have htop := (hused.atTop_unitStart other).evolves hu
  have hquiet : v.session.isParsingModule = false := by
    apply invariant_isParsingModule.evolves hu
    rw [isParsingModule_unitStart, hparse]
  have hlacks : v.frame.block ≠ 0 → v.session.Lacks v.frame.block name := by
    intro hne
    have hfurther : t.counters.units ≠ 0 := by
      intro hnone
      apply hne
      rw [hblock]
      exact unitStart_first hnone other
    have hinherits := hused.inherits_compile hfurther hparse other hglobal hunit
    rw [hblock]
    exact hinherits.lacks.of_extends hend
  rw [hblock, htop.isTop.enclosing?, ← hblock] at hblocks
  obtain ⟨i, x, hx, rfl, hmember, hfunction⟩ := hglobal
  have hextends := (t.extends_unitStart other).trans hu.extends
  obtain ⟨j, y, hfound, hle, hy, hyname⟩ := Sight.resolve_global hscope (Option.some.inj hblocks).symm
    htop.indexed hquiet (hextends.symbol? hx) hmember hfunction hlacks
  obtain ⟨y', hy'⟩ := symbol?_of_le hx hle
  have hsame := hextends.symbol? hy'
  rw [hy] at hsame
  cases hsame
  exact ⟨j, y, hfound, Sight.rootTarget_of_found hfound, hy', hyname⟩

/-- A unit assigns `a`, another one assigns `y`, and the third one reads `a`. -/
theorem third_unit_resolves_assigned :
    let x (name : String) : Node := .identifier (.plain name .nil)
    let one (name : String) : Node := .assign (x name) (.literal .int "1" .nil) .nil
    let s := (Session.compile (.new {}) [one "a"] .associative).2
    let t := (s.compile [one "y"] .imperative).2
    let u := (t.unitStart .associative).2
    let f := t.unitSite .associative
    (Session.compile (.new {}) [one "a"] .associative).1.toBool = true ∧
      sightIn f u = .ok ⟨u, f, [2, 0]⟩ ∧
      ∃ i y, Sight.resolve ⟨u, f, [2, 0]⟩ "a" = .found ⟨.block 0, i⟩ ∧
        Sight.rootTarget ⟨u, f, [2, 0]⟩ "a" ≠ .unbound ∧
        t.symbol? ⟨.block 0, i⟩ = some y ∧ y.name = "a" := by
  intro x one s t u f
  have hok : (Session.compile (.new {}) [one "a"] .associative).1.toBool = true := by decide +kernel
  have hlater : s.Later t := .compile [one "y"] .imperative (.refl s)
  have hused : t.Used := hlater.used (.compile _ .associative (.new {}))
  have hparse : t.isParsingModule = false := by decide +kernel
  have hunit : "a" ∉ Node.allNames Node.declaredName? [.assign (x "z") (x "a") .nil] := by decide
  have hsight : sightIn f u = .ok ⟨u, f, [2, 0]⟩ := by
    have henclosing : u.enclosing? f.block = some [2, 0] := by decide +kernel
    unfold sightIn
    rw [henclosing]
    rfl
  have hunits : (new {}).counters.units = 0 := rfl
  have hname : "a" ∈ Node.allNames Node.assignedName? [one "a"] := by decide
  have hbegin : Evolves (fun _ => True) (t.unitSite .associative) u u := .refl _ _ u
  refine ⟨hok, hsight, ?_⟩
  exact Used.resolve_assigned (.new {}) hunits hok hname hlater hparse hunit hbegin
    (hused.extends_compile _ .associative) (t.site_unitSite .associative) hsight

/-- A unit assigns `a`, another one assigns `y`, and a third one that reads `y` does not see it: `y` is a
variable of the second unit's own block. -/
theorem sibling_unbound :
    let x (name : String) : Node := .identifier (.plain name .nil)
    let one (name : String) : Node := .assign (x name) (.literal .int "1" .nil) .nil
    let s := (Session.compile (.new {}) [one "a"] .associative).2
    let t := (s.compile [one "y"] .associative).2
    let u := (t.compile [.assign (x "z") (x "y") .nil] .associative).2
    t.isParsingModule = false ∧
      (t.symbol? ⟨.block 1, 0⟩).map Symbol.name = some "y" ∧
      (t.compile [.assign (x "z") (x "y") .nil] .associative).1.toBool = true ∧
      t.diagnostics.size = 0 ∧ u.diagnostics.map Diagnostic.issue = #[.unboundIdentifier] := by
  intro x one s t u
  decide +kernel

end Session

end Diglot
