import Diglot.Proofs.Evolution.Basic
import Diglot.Proofs.Flow.Stream
import Diglot.Proofs.Globals.Table

/-! # Names that a further unit inherits

`Inherits own name s`: the unit in block `own` finds the name in the first block, because its own block has
no symbol of that name. A name that it finds is not declared again by assigning to it.

Inner blocks, procedures and classes declare nothing in the block of the unit (`Evolves.inherits`).
-/

set_option autoImplicit false

namespace Diglot

open Lowering

/-! ## Declarations that go elsewhere -/

namespace Lowering

/-- What the frame declares does not go to the table of the block. -/
def Frame.IsBeside (f : Frame) (own : Nat) : Prop :=
  f.block ≠ own ∨ f.scope.procedure = none ∧ f.scope.classScope.isSome

/-- The table of a block stays as it is while lowering is beside it. The first block is another matter,
because static members are entered there. -/
theorem invariant_beside {own : Nat} (hown : own ≠ 0) (h : Header) :
    Invariant fun f s => f.IsBeside own ∧ s.isWatching = false ∧ s.header? own = some h where
  change := by
    intro K f s t ⟨hf, hw, hs⟩ hc
    refine ⟨hf, hc.isWatching_eq.trans hw, ?_⟩
    obtain hsame | ⟨d, rfl⟩ := hc.sameNames_or_declare
    · rw [hsame.headers, hs]
    obtain ⟨cls, counters, _, _, _, _, heq⟩ | ⟨counters, hlocal, _, heq⟩ := s.declare_cases f d
    · rw [heq]
      unfold Session.enterMember
      split
      · show (Session.enterLocal _ 0 _).header? own = some h
        rw [Session.header?_enterLocal, if_neg (Ne.symm hown)]
        exact hs
      · exact hs
    · rw [heq, Session.header?_enterLocal]
      have hne : f.block ≠ own := by
        obtain hne | ⟨hproc, hcls⟩ := hf
        · exact hne
        · rw [hw, hproc] at hlocal
          obtain hlocal | hlocal | hlocal := hlocal
          · cases hlocal
          · cases hlocal
          · rw [hlocal] at hcls
            cases hcls
      rw [if_neg hne]
      exact hs
  opens := by
    intro f g s t close ⟨hf, hw, hs⟩ ho
    have hlt := Session.lt_of_header? hs
    refine ⟨?_, ho.isWatching_eq.trans hw, ?_⟩
    · cases ho with
      | block => exact .inl (Nat.ne_of_gt hlt)
      | procedure => exact .inl (Nat.ne_of_gt hlt)
      | cls c classes _ hnone =>
        obtain hne | ⟨_, hcls⟩ := hf
        · exact .inl hne
        · rw [hnone] at hcls
          cases hcls
    · cases ho with
      | block dialect => rw [Session.header?_openBlock, if_neg (Nat.ne_of_lt hlt), hs]
      | procedure p message => rw [Session.header?_openProcedure, if_neg (Nat.ne_of_lt hlt), hs]
      | cls => exact hs
  closes := by
    intro K f g s t u v close ⟨hf, _, _⟩ ho _ ⟨_, hw, hs⟩ hc
    refine ⟨hf, (ho.close_eq hc).1.trans hw, ?_⟩
    rw [ho.header?_close hc, hs]

/-- Lowering does not begin or end to import a module. -/
theorem invariant_isParsingModule : Invariant fun _ s => s.isParsingModule = false where
  change := by
    intro K f s t hs hc
    obtain hsame | ⟨d, rfl⟩ := hc.sameNames_or_declare
    · exact hsame.isParsingModule.trans hs
    obtain ⟨cls, counters, _, _, _, _, heq⟩ | ⟨counters, _, _, heq⟩ := s.declare_cases f d
    · rw [heq]
      unfold Session.enterMember
      split <;> exact hs
    · rw [heq]
      exact hs
  opens := by
    intro f g s t close hs ho
    cases ho with
    | block => exact hs
    | procedure p message =>
      show (Session.modifyProcedure _ _ _).isParsingModule = false
      unfold Session.modifyProcedure Session.register
      split <;> split <;> exact hs
    | cls => exact hs
  closes := by
    intro K f g s t u v close _ ho _ hu hc
    cases ho with
    | procedure =>
      obtain rfl | ⟨entry, rfl⟩ := hc
      · exact hu
      · unfold Session.modifyProcedure
        split <;> exact hu
    | _ =>
      rw [← hc]
      exact hu

end Lowering

/-! ## Inherited names -/

namespace Session

/-- The unit in the given block has the name from the first block. -/
structure Inherits (own : Nat) (name : String) (s : Session) : Prop where
  isWatching : s.isWatching = false
  isParsingModule : s.isParsingModule = false
  isTop : s.IsTop own
  indexed : s.Indexed
  hasGlobal : s.HasGlobal name
  lacks : s.Lacks own name

variable {own : Nat} {name : String} {s t : Session}

theorem Lacks.congr (h : s.Lacks own name) (heq : t.header? own = s.header? own) :
    t.Lacks own name := by
  intro i x hx
  apply h i x
  rw [symbol?_block] at hx ⊢
  rwa [← heq]

theorem Lacks.of_extends (h : t.Lacks own name) (hst : s.Extends t) : s.Lacks own name :=
  fun i x hx => h i x (hst.symbol? hx)

namespace Inherits

theorem along (h : Inherits own name s) (he : s.Extends t) (hw : t.isWatching = s.isWatching)
    (hp : t.isParsingModule = s.isParsingModule) (hown : t.header? own = s.header? own) :
    Inherits own name t :=
  ⟨hw.trans h.isWatching, hp.trans h.isParsingModule, h.isTop.extends he, he.indexed h.indexed,
    h.hasGlobal.extends he, h.lacks.congr hown⟩

/-- Where the tables of blocks are the same, the name is still inherited. -/
theorem headers (h : Inherits own name s) (heq : t.header? = s.header?)
    (hw : t.isWatching = s.isWatching) (hp : t.isParsingModule = s.isParsingModule) :
    Inherits own name t := h.along (extends_of_headers heq) hw hp (congrFun heq own)

theorem sameNames (h : Inherits own name s) (hst : s.SameNames t) : Inherits own name t :=
  h.headers hst.headers hst.isWatching hst.isParsingModule

theorem lt_size (h : Inherits own name s) : own < s.blocks.size := by
  by_cases hown : own = 0
  · obtain ⟨_, hs, _⟩ := h.isTop.first
    rw [hown]
    exact lt_of_header? hs
  · obtain ⟨_, hs, _⟩ := h.isTop.inner hown
    exact lt_of_header? hs

/-- A block that is added takes nothing away. -/
theorem addBlock (h : Inherits own name s) {new : Header} (hempty : new.symbols = {})
    (hnew : ∀ id, t.header? id = if id = s.blocks.size then some new else s.header? id)
    (hw : t.isWatching = s.isWatching) (hp : t.isParsingModule = s.isParsingModule) :
    Inherits own name t := by
  apply h.along (extends_of_new hempty hnew) hw hp
  rw [hnew, if_neg (Nat.ne_of_lt h.lt_size)]

/-- Declaring another name in the block of the unit. -/
theorem enterLocal (h : Inherits own name s) {x : Symbol} (hx : x.name ≠ name) (block : Nat) :
    Inherits own name (s.enterLocal block x) := by
  have he := s.extends_enterLocal block x
  refine ⟨h.isWatching, h.isParsingModule, h.isTop.extends he, he.indexed h.indexed,
    h.hasGlobal.extends he, fun i y hy => ?_⟩
  rw [symbol?_block, header?_enterLocal] at hy
  split at hy
  · obtain ⟨hd, hd', hy⟩ := Option.bind_eq_some_iff.mp hy
    obtain ⟨hd, hs, rfl⟩ := Option.map_eq_some_iff.mp hd'
    obtain hold | ⟨_, rfl⟩ := SymbolTable.get?_append_cases hy
    · apply h.lacks i y
      rw [symbol?_block, hs]
      exact hold
    · exact hx
  · apply h.lacks i y
    rw [symbol?_block]
    exact hy

/-- Lowering beside the block of the unit leaves the name inherited. -/
theorem evolves (h : Inherits own name s) (hown : own ≠ 0) {K : OpCode → Prop} {f : Frame}
    (hf : f.IsBeside own) (he : Evolves K f s t) : Inherits own name t := by
  obtain ⟨hd, hs, _⟩ := h.isTop.inner hown
  have hbeside := (invariant_beside hown hd).evolves he ⟨hf, h.isWatching, hs⟩
  have hparse := invariant_isParsingModule.evolves he h.isParsingModule
  apply h.along he.extends he.isWatching_eq
  · rw [hparse, h.isParsingModule]
  · rw [hbeside.2.2, hs]

/-- At the top level of the unit the name stands for a variable. -/
theorem resolve (h : Inherits own name s) {f : Frame} (hblock : f.block = own)
    (hscope : f.scope = .global) {v : Sight} (hv : sightIn f s = .ok v) :
    ∃ r, v.resolve name = .found r := by
  obtain ⟨rfl, rfl, hblocks⟩ := eq_of_sightIn hv
  subst hblock
  rw [h.isTop.enclosing?] at hblocks
  obtain ⟨i, x, hx, rfl, hmember, hfunction⟩ := h.hasGlobal
  obtain ⟨j, _, hfound, _⟩ := Sight.resolve_global hscope (Option.some.inj hblocks).symm h.indexed
    h.isParsingModule hx hmember hfunction fun _ => h.lacks
  exact ⟨_, hfound⟩

end Inherits

end Session

end Diglot
