import Diglot.Proofs.Split.Statement

/-! # Splitting chains accepts the same programs

Two sessions that differ only in whether chains are split, and that got the same calls, compile an orderly
unit alike: into the same block, or up to the same issue (`Twins.compile_alike`). Of a unit that is not
orderly a session that splits may accept what another one refuses (`literal_root_accepted`).
-/

set_option autoImplicit false

namespace Diglot

open Lowering

namespace Session

variable {s t : Session}

/-! ## What a call does to the shape -/

theorem isEmpty_blocks_shape (s : Session) : s.shape.blocks.isEmpty = s.blocks.isEmpty := by simp [shape]

theorem shape_importSymbol (s : Session) (name : String) (type : Ty) (library : String) :
    (s.importSymbol name type library).2.shape =
      if s.shape.blocks.isEmpty then s.shape.addBlock .global else s.shape := by
  have hfirst : (if s.blocks.isEmpty then s.addBlock .global .associative none else s).shape =
      if s.shape.blocks.isEmpty then s.shape.addBlock .global else s.shape := by
    rw [isEmpty_blocks_shape]
    split
    · exact s.shape_addBlock _ _ _
    · rfl
  rw [← hfirst]
  unfold importSymbol
  generalize (if s.blocks.isEmpty then s.addBlock .global .associative none else s) = u
  refine (shape_modifyBlock ?_ _ 0).trans rfl
  exact fun _ => rfl

theorem shape_addClass (s : Session) (c : Class) :
    (s.addClass c).2.shape =
      if (s.shape.classes.findIdx? fun k => k.1 == c.name).isSome then s.shape
      else s.shape.addClass c.shape := by
  have hadded := s.indexOf?_eq_shape c.name
  unfold addClass
  cases happend : s.classes.append? c with
  | none =>
    rw [← hadded, if_pos (ClassTable.append?_eq_none.mp happend)]
  | some classes =>
    rw [← hadded, (ClassTable.append?_eq_some.mp happend).1]
    exact shape_append? happend

theorem shape_addMethod (s : Session) (cls : Nat) (p : Procedure) :
    (s.addMethod cls p).2.shape = s.shape.addMethod cls p.isConstructor := by
  have hadded := s.shape_appendProcedure cls p
  unfold addMethod
  cases hcls : s.classes.get? cls with
  | some c => exact hadded
  | none =>
    -- no class has the index, so there is nothing to change
    have hlength : s.shape.classes.length ≤ cls := by
      rw [size_classes_shape]
      exact Array.getElem?_eq_none_iff.mp hcls
    unfold Shape.addMethod
    rw [List.modify_eq_self hlength]

theorem shape_addProcedure (s : Session) (p : Procedure) :
    (s.addProcedure p).2.shape = s.shape.register .global p.isConstructor :=
  s.shape_register .global p

theorem shape_openUnit (s : Session) (dialect : Dialect) :
    (s.openUnit dialect).2.shape =
      if s.shape.units = 0 ∧ ¬ s.shape.blocks.isEmpty then s.shape else s.shape.addBlock .global := by
  rw [isEmpty_blocks_shape]
  have hunits : s.shape.units = s.counters.units := rfl
  rw [hunits]
  unfold openUnit
  by_cases hfirst : s.counters.units = 0
  · by_cases hempty : s.blocks.isEmpty
    · rw [if_pos hfirst, if_pos hempty, if_neg fun h => h.2 hempty]
      exact s.shape_addBlock _ _ _
    · rw [if_pos hfirst, if_neg hempty, if_pos ⟨hfirst, hempty⟩]
      apply shape_modifyBlock
      exact fun _ => rfl
  · rw [if_neg hfirst, if_neg fun h => hfirst h.1]
    exact s.shape_addBlock _ _ _

/-- The number of the block of a unit can be seen from the shape. -/
theorem openUnit_eq_shape (s : Session) (dialect : Dialect) :
    (s.openUnit dialect).1 = if s.shape.units = 0 then 0 else s.shape.blocks.length := by
  rw [length_blocks_shape]
  unfold openUnit
  have hunits : s.shape.units = s.counters.units := rfl
  rw [hunits]
  split
  · split <;> rfl
  · rfl

/-- Watching leaves the shape as it is. -/
theorem shape_watchExpression (s : Session) (id : Nat) (node : Node) :
    (s.watchExpression id node).2.shape = s.shape := by
  have hwatched {u v : Session} (h : u.Watched v) : v.shape = u.shape := by
    rw [h.same]
    rfl
  have hspares := s.watchExpression_spares id node
  cases hb : s.block? id with
  | none =>
    rw [hb] at hspares
    dsimp only at hspares
    rw [hspares]
  | some b =>
    rw [hb] at hspares
    revert hspares
    rcases s.watchExpression id node with ⟨_ | entry, u⟩
    · intro h
      refine (hwatched h).trans ?_
      rfl
    · intro h
      refine (hwatched h.2.1).trans ?_
      refine Eq.trans ?_ (s.shape_modifyBlock (g := fun c =>
        { c with symbols := c.symbols.append (s.watchVariable id b) }) (fun _ => rfl) id)
      rfl

/-! ## A unit in sessions of the same shape -/

/-- The next unit starts alike in sessions of the same shape. -/
theorem parallel_unitStart (h : s.shape = t.shape) (dialect : Dialect) :
    (s.unitStart dialect).1 = (t.unitStart dialect).1 ∧
      (s.unitStart dialect).2.Parallel (t.unitStart dialect).2 := by
  have hquiet (u : Session) : ({ u with isWatching := false } : Session).shape = u.shape := rfl
  have hshape (u : Session) : (u.unitStart dialect).2.shape =
      { (({ u with isWatching := false } : Session).openUnit dialect).2.shape with
        units := (({ u with isWatching := false } : Session).openUnit dialect).2.shape.units + 1 } := rfl
  refine ⟨?_, s.isWatching_unitStart dialect, t.isWatching_unitStart dialect, ?_⟩
  · change (openUnit _ dialect).1 = (openUnit _ dialect).1
    rw [openUnit_eq_shape, openUnit_eq_shape, hquiet, hquiet, h]
  · rw [hshape, hshape, shape_openUnit, shape_openUnit, hquiet, hquiet, h]

/-- Both calls told the same block, or both halted at the same issue. -/
inductive Alike : Except CompileError Nat → Except CompileError Nat → Prop where
  | accepted (block : Nat) : Alike (.ok block) (.ok block)
  | refused {d e : Diagnostic} : d.issue = e.issue → Alike (.error (.halt d)) (.error (.halt e))

theorem Alike.toBool_eq {r r' : Except CompileError Nat} (h : Alike r r') : r.toBool = r'.toBool := by
  cases h <;> rfl

/-- An orderly unit is compiled alike from sessions of the same shape, which it leaves in the same shape. -/
theorem compile_shape (hs : s.Used) (ht : t.Used) (h : s.shape = t.shape) {unit : List Node}
    (hunit : Node.areOrderly unit = true) (dialect : Dialect) :
    Alike (s.compile unit dialect).1 (t.compile unit dialect).1 ∧
      (s.compile unit dialect).2.shape = (t.compile unit dialect).2.shape := by
  obtain ⟨hblock, hstart⟩ := parallel_unitStart h dialect
  have hs' := hs.no_defect.1 unit dialect
  have ht' := ht.no_defect.1 unit dialect
  have hrun := Agrees.lowerCode (f := unitFrame (t.unitStart dialect).1 .global dialect unit) hunit
    { session := (s.unitStart dialect).2 } { session := (t.unitStart dialect).2 } hstart
  rw [compile_eq] at hs' ht' ⊢
  rw [compile_eq]
  rw [hblock] at hs' ⊢
  generalize lowerCode unit _ { session := (s.unitStart dialect).2 } = r at hrun hs' ⊢
  generalize lowerCode unit _ { session := (t.unitStart dialect).2 } = r' at hrun ht' ⊢
  cases hrun with
  | finished hst => exact ⟨.accepted _, hst.shape⟩
  | halted hissue hst => exact ⟨.refused hissue, hst.shape⟩
  | left => exact absurd rfl (hs' _)
  | right => exact absurd rfl (ht' _)

/-! ## Sessions that differ in splitting -/

/-- The request is regular, and the unit that it compiles is orderly. -/
def Orderly (s : Session) (request : Request) : Prop :=
  s.Regular request ∧ ∀ unit dialect, request = .compile unit dialect → Node.areOrderly unit = true

/-- The sessions differ only in whether chains are split, and got the same calls, whatever these returned.
The calls are regular, and all units orderly. -/
def Twins (s t : Session) : Prop :=
  ∃ options fullSsa requests, (new options).Calls Orderly requests s ∧
    t = ((new { options with fullSsa }).serveAll requests).2

theorem Twins.new (options : Options) (fullSsa : Bool) :
    Twins (new options) (new { options with fullSsa }) := ⟨options, fullSsa, [], .refl, rfl⟩

theorem Twins.compile (unit : List Node) (dialect : Dialect) (hunit : Node.areOrderly unit = true)
    (h : Twins s t) : Twins (s.compile unit dialect).2 (t.compile unit dialect).2 := by
  obtain ⟨options, fullSsa, requests, hcalls, rfl⟩ := h
  refine ⟨options, fullSsa, _, hcalls.call (.compile unit dialect) ⟨trivial, ?_⟩, ?_⟩
  · rintro _ _ ⟨⟩
    exact hunit
  · rw [serveAll_concat]
    rfl

/-- Both sessions are in use, and have the same shape. -/
theorem Twins.shape (h : Twins s t) : s.Used ∧ t.Used ∧ s.shape = t.shape := by
  obtain ⟨options, fullSsa, requests, hcalls, rfl⟩ := h
  induction hcalls with
  | refl => exact ⟨.new _, .new _, rfl⟩
  | @call requests s request _ horderly ih =>
    rw [serveAll_concat]
    generalize ((Session.new { options with fullSsa }).serveAll requests).2 = t at ih ⊢
    obtain ⟨hs, ht, hshape⟩ := ih
    refine ⟨hs.call request horderly.1, ht.call request ?_, ?_⟩
    · cases request with
      | addClass c =>
        obtain ⟨d, symbols, procedures, hc, hbase⟩ := horderly.1
        refine ⟨d, symbols, procedures, hc, fun b hb => ?_⟩
        rw [← size_classes_shape, ← hshape, size_classes_shape]
        exact hbase b hb
      | _ => trivial
    · cases request with
      | setFile file => exact hshape
      | setParsingModule on => exact hshape
      | importSymbol name type library =>
        change (s.importSymbol name type library).2.shape = (t.importSymbol name type library).2.shape
        rw [shape_importSymbol, shape_importSymbol, hshape]
      | addClass c =>
        change (s.addClass c).2.shape = (t.addClass c).2.shape
        rw [shape_addClass, shape_addClass, hshape]
      | addMethod cls p =>
        change (s.addMethod cls p).2.shape = (t.addMethod cls p).2.shape
        rw [shape_addMethod, shape_addMethod, hshape]
      | addProcedure p =>
        change (s.addProcedure p).2.shape = (t.addProcedure p).2.shape
        rw [shape_addProcedure, shape_addProcedure, hshape]
      | compile unit dialect =>
        exact (compile_shape hs ht hshape (horderly.2 unit dialect rfl) dialect).2
      | watchExpression id node =>
        change (s.watchExpression id node).2.shape = (t.watchExpression id node).2.shape
        rw [shape_watchExpression, shape_watchExpression, hshape]

/-- Whether chains are split does not decide whether an orderly unit is accepted, nor the issue that it is
refused for. -/
theorem Twins.compile_alike (h : Twins s t) {unit : List Node} (hunit : Node.areOrderly unit = true)
    (dialect : Dialect) : Alike (s.compile unit dialect).1 (t.compile unit dialect).1 := by
  obtain ⟨hs, ht, hshape⟩ := h.shape
  exact (compile_shape hs ht hshape hunit dialect).1

/-- After `x = a.b.f()`, which both sessions accept, both refuse to assign to a call that ends a chain. -/
theorem twins_refuse_call_target :
    let x (name : String) : Node := .identifier (.plain name .nil)
    let f : Node := .call ⟨"f", [], [], [], .nil⟩
    let dot (left right : Node) : Node := .member left right .dot false .nil
    let first := [.assign (x "x") (dot (dot (x "a") (x "b")) f) .nil]
    let next := [.assign (x "y") (dot (x "a") (x "b")) .nil, .assign (dot (x "a") f) (x "y") .nil]
    let s := (Session.compile (.new {}) first .associative).2
    let t := (Session.compile (.new { fullSsa := true }) first .associative).2
    Twins s t ∧ Node.areOrderly next = true ∧
      Alike (s.compile next .associative).1 (t.compile next .associative).1 ∧
      (s.compile next .associative).1.toBool = false := by
  intro x f dot first next s t
  have hnew : Twins (.new {}) (.new { fullSsa := true }) := .new {} true
  have htwins : Twins s t := .compile first .associative (by decide) hnew
  have hnext : Node.areOrderly next = true := by decide
  refine ⟨htwins, hnext, Twins.compile_alike htwins hnext .associative, ?_⟩
  decide +kernel

/-- The chain `5.a` is refused as it stands. Split, its root becomes an assignment of its own, and the chain
that is left begins with a name. -/
theorem literal_root_accepted :
    let five : Node := .literal .int "5" .nil
    let chain : Node := .member five (.identifier (.plain "a" .nil)) .dot false .nil
    let unit := [.assign (.identifier (.plain "x" .nil)) chain .nil]
    let s : Session := .new {}
    let t : Session := .new { fullSsa := true }
    Twins s t ∧ (s.compile unit .associative).1.toBool = false ∧
      (s.compile unit .associative).2.diagnostics.map Diagnostic.issue = #[.nonIdentifierSegment] ∧
      (t.compile unit .associative).1.toBool = true ∧
      (t.compile unit .associative).2.diagnostics.size = 0 ∧
      ¬ Alike (s.compile unit .associative).1 (t.compile unit .associative).1 := by
  intro five chain unit s t
  have hrefused : (s.compile unit .associative).1.toBool = false := by decide +kernel
  have haccepted : (t.compile unit .associative).1.toBool = true := by decide +kernel
  refine ⟨.new {} true, hrefused, by decide +kernel, haccepted, by decide +kernel, fun halike => ?_⟩
  have hsame := halike.toBool_eq
  rw [hrefused, haccepted] at hsame
  cases hsame

end Session

end Diglot
