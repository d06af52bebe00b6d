import Diglot.Proofs.Tables.Growth
import Diglot.Proofs.Tables.Locals
import Diglot.Proofs.Debug.Erasure

/-! # Tables of names that are extended

* `SymbolTable.Indexed`: under each name a table lists the positions of its symbols, in increasing order.
  Then the first symbol of a name is found that satisfies a condition.
* `Session.Extends`: the blocks of a session have stayed in their places, and their tables have only been
  appended to. Lowering does nothing else to them (`Evolves.extends`).
-/

set_option autoImplicit false

namespace Diglot

open Lowering

namespace SymbolTable

/-- Every name lists the positions of its symbols. -/
structure Indexed (t : SymbolTable) : Prop where
  positions : ∀ name i, i ∈ t.indicesOf name ↔ ∃ x, t.get? i = some x ∧ x.name = name
  increasing : ∀ name, (t.indicesOf name).Pairwise (· < ·)

theorem indexed_empty : ({} : SymbolTable).Indexed := by
  refine ⟨fun name i => ⟨fun hi => ?_, fun ⟨x, hx, _⟩ => ?_⟩, fun name => List.Pairwise.nil⟩
  · cases hi
  · cases hx

theorem Indexed.lt_size {t : SymbolTable} (h : t.Indexed) {name : String} {i : Nat}
    (hi : i ∈ t.indicesOf name) : i < t.size := by
  obtain ⟨x, hx, _⟩ := (h.positions name i).mp hi
  exact (Array.getElem?_eq_some_iff.mp hx).1

theorem Indexed.append {t : SymbolTable} (h : t.Indexed) (y : Symbol) : (t.append y).Indexed := by
  refine ⟨fun name i => ?_, fun name => ?_⟩
  · rw [indicesOf_append]
    by_cases hi : i < t.size
    · rw [get?_append_of_lt y hi, ← h.positions name i]
      split
      · simp [Nat.ne_of_lt hi]
      · rfl
    · have hnot : i ∉ t.indicesOf name := fun hmem => hi (h.lt_size hmem)
      constructor
      · intro hmem
        by_cases hname : name = y.name
        · rw [if_pos hname] at hmem
          have heq : i = t.size := by simpa [hnot] using hmem
          rw [heq]
          exact ⟨_, get?_append_size t y, hname.symm⟩
        · rw [if_neg hname] at hmem
          exact absurd hmem hnot
      · intro ⟨x, hx, hname⟩
        obtain hold | ⟨rfl, rfl⟩ := get?_append_cases hx
        · exact absurd (Array.getElem?_eq_some_iff.mp hold).1 hi
        · rw [if_pos hname.symm]
          simp
  · rw [indicesOf_append]
    split
    · apply List.pairwise_append.mpr
      refine ⟨h.increasing name, List.pairwise_singleton _ _, fun i hi j hj => ?_⟩
      rw [List.mem_singleton.mp hj]
      exact h.lt_size hi
    · exact h.increasing name

/-- A symbol of the name is found if one satisfies the condition, and none behind it. -/
theorem Indexed.findNamed?_le {t : SymbolTable} (h : t.Indexed) {i : Nat} {x : Symbol}
    (hx : t.get? i = some x) {p : Symbol → Bool} (hp : p x = true) :
    ∃ j y, t.findNamed? x.name p = some j ∧ j ≤ i ∧ t.get? j = some y ∧ y.name = x.name := by
  have hmem : i ∈ t.indicesOf x.name := (h.positions x.name i).mpr ⟨x, hx, rfl⟩
  cases hfind : t.findNamed? x.name p with
  | none =>
    have hnone := List.find?_eq_none.mp hfind i hmem
    rw [hx] at hnone
    exact absurd hp hnone
  | some j =>
    obtain ⟨y, hy, hname⟩ := (h.positions x.name j).mp (List.mem_of_find?_eq_some hfind)
    refine ⟨j, y, rfl, ?_, hy, hname⟩
    obtain ⟨_, before, after, heq, hbefore⟩ := List.find?_eq_some_iff_append.mp hfind
    have hsorted := h.increasing x.name
    rw [heq] at hsorted hmem
    obtain hin | hin := List.mem_append.mp hmem
    · have hnot := hbefore i hin
      simp [hx, hp] at hnot
    · obtain rfl | hin := List.mem_cons.mp hin
      · exact Nat.le_refl _
      · have hcons := (List.pairwise_append.mp hsorted).2.1
        exact Nat.le_of_lt ((List.pairwise_cons.mp hcons).1 i hin)

/-- Nothing is found under a name that no symbol has. -/
theorem Indexed.findNamed?_eq_none {t : SymbolTable} (h : t.Indexed) {name : String}
    (hname : ∀ i x, t.get? i = some x → x.name ≠ name) (p : Symbol → Bool) :
    t.findNamed? name p = none := by
  unfold findNamed?
  apply List.find?_eq_none.mpr
  intro i hi
  obtain ⟨x, hx, heq⟩ := (h.positions name i).mp hi
  exact absurd heq (hname i x hx)

theorem Indexed.name_of_findNamed? {t : SymbolTable} (h : t.Indexed) {name : String}
    {p : Symbol → Bool} {i : Nat} (hi : t.findNamed? name p = some i) :
    ∃ x, t.get? i = some x ∧ x.name = name ∧ p x = true := by
  obtain ⟨x, hx, hp⟩ := findNamed?_eq_some hi
  obtain ⟨y, hy, hname⟩ := (h.positions name i).mp (List.mem_of_find?_eq_some hi)
  rw [hx] at hy
  cases hy
  exact ⟨x, hx, hname, hp⟩

end SymbolTable

/-! ## Tables that are extended -/

/-- The block is the same, but for symbols behind those that it had. -/
structure Header.Extends (h h' : Header) : Prop where
  parent : h'.parent = h.parent
  procedure : h'.procedure = h.procedure
  symbols : ∃ l : List Symbol, h'.symbols = l.foldl SymbolTable.append h.symbols

theorem Header.Extends.refl (h : Header) : h.Extends h := ⟨rfl, rfl, [], rfl⟩

theorem Header.Extends.trans {h h' h'' : Header} (a : h.Extends h') (b : h'.Extends h'') :
    h.Extends h'' := by
  obtain ⟨l, hl⟩ := a.symbols
  obtain ⟨m, hm⟩ := b.symbols
  exact ⟨b.parent.trans a.parent, b.procedure.trans a.procedure, l ++ m, by
    rw [hm, hl, List.foldl_append]⟩

theorem Header.Extends.indexed {h h' : Header} (a : h.Extends h') (hi : h.symbols.Indexed) :
    h'.symbols.Indexed := by
  obtain ⟨l, hl⟩ := a.symbols
  have hfold (t : SymbolTable) (ht : t.Indexed) : (l.foldl SymbolTable.append t).Indexed := by
    clear hl
    induction l generalizing t with
    | nil => exact ht
    | cons y rest ih => exact ih (t.append y) (ht.append y)
  rw [hl]
  exact hfold _ hi

theorem Header.Extends.get? {h h' : Header} (a : h.Extends h') {i : Nat} {x : Symbol}
    (hx : h.symbols.get? i = some x) : h'.symbols.get? i = some x := by
  obtain ⟨l, hl⟩ := a.symbols
  have hfold (t : SymbolTable) (ht : t.get? i = some x) :
      (l.foldl SymbolTable.append t).get? i = some x := by
    clear hl
    induction l generalizing t with
    | nil => exact ht
    | cons y rest ih => exact ih (t.append y) (SymbolTable.get?_append_of_some ht y)
  rw [hl]
  exact hfold _ hx

namespace Session

/-- The tables of all blocks list the positions of names. -/
def Indexed (s : Session) : Prop := ∀ id h, s.header? id = some h → h.symbols.Indexed

/-- All blocks are still there with their symbols; new blocks began without any. -/
structure Extends (s t : Session) : Prop where
  old : ∀ id h, s.header? id = some h → ∃ h', t.header? id = some h' ∧ h.Extends h'
  new : ∀ id h', s.header? id = none → t.header? id = some h' →
    ∃ h : Header, h.symbols = {} ∧ h.Extends h'

theorem Extends.refl (s : Session) : s.Extends s := by
  refine ⟨fun id h hs => ⟨h, hs, .refl h⟩, fun id h hnone hsome => ?_⟩
  rw [hnone] at hsome
  cases hsome

theorem Extends.trans {s t u : Session} (a : s.Extends t) (b : t.Extends u) : s.Extends u := by
  refine ⟨fun id h hs => ?_, fun id h' hnone hu => ?_⟩
  · obtain ⟨h', ht, hext⟩ := a.old id h hs
    obtain ⟨h'', hu, hext'⟩ := b.old id h' ht
    exact ⟨h'', hu, hext.trans hext'⟩
  · cases ht : t.header? id with
    | none => exact b.new id h' ht hu
    | some k =>
      obtain ⟨h, hempty, hext⟩ := a.new id k hnone ht
      obtain ⟨h'', hu', hext'⟩ := b.old id k ht
      rw [hu] at hu'
      cases hu'
      exact ⟨h, hempty, hext.trans hext'⟩

/-- Symbols of blocks stay where they are. -/
theorem Extends.symbol? {s t : Session} (a : s.Extends t) {id i : Nat} {x : Symbol}
    (hx : s.symbol? ⟨.block id, i⟩ = some x) : t.symbol? ⟨.block id, i⟩ = some x := by
  rw [symbol?_block] at hx ⊢
  obtain ⟨h, hs, hget⟩ := Option.bind_eq_some_iff.mp hx
  obtain ⟨h', ht, hext⟩ := a.old id h hs
  rw [ht]
  exact hext.get? hget

theorem extends_of_headers {s t : Session} (h : t.header? = s.header?) : s.Extends t := by
  refine ⟨fun id hd hs => ⟨hd, by rw [h, hs], .refl hd⟩, fun id hd hnone hsome => ?_⟩
  rw [h, hnone] at hsome
  cases hsome

theorem extends_of_new {s t : Session} {new : Header} (hempty : new.symbols = {})
    (hnew : ∀ id, t.header? id = if id = s.blocks.size then some new else s.header? id) :
    s.Extends t := by
  refine ⟨fun id h hs => ⟨h, ?_, .refl h⟩, fun id h' hnone hsome => ?_⟩
  · rw [hnew, if_neg (Nat.ne_of_lt (lt_of_header? hs)), hs]
  · rw [hnew] at hsome
    split at hsome
    · cases hsome
      exact ⟨new, hempty, .refl new⟩
    · rw [hnone] at hsome
      cases hsome

theorem header?_enterLocal (s : Session) (block : Nat) (x : Symbol) (id : Nat) :
    (s.enterLocal block x).header? id =
      if block = id then (s.header? id).map fun h => { h with symbols := h.symbols.append x }
      else s.header? id :=
  header?_modifyBlock_eq (k := fun h => { h with symbols := h.symbols.append x }) (fun _ => rfl) s
    block id

theorem extends_enterLocal (s : Session) (block : Nat) (x : Symbol) :
    s.Extends (s.enterLocal block x) := by
  refine ⟨fun id h hs => ?_, fun id h' hnone hsome => ?_⟩
  · rw [header?_enterLocal]
    split
    · rw [hs]
      exact ⟨_, rfl, rfl, rfl, [x], rfl⟩
    · exact ⟨h, hs, .refl h⟩
  · rw [header?_enterLocal, hnone] at hsome
    split at hsome <;> cases hsome

theorem Extends.indexed {s t : Session} (h : s.Extends t) (hs : s.Indexed) : t.Indexed := by
  intro id h' ht
  cases hold : s.header? id with
  | some hd =>
    obtain ⟨h'', ht', hext⟩ := h.old id hd hold
    rw [ht] at ht'
    cases ht'
    exact hext.indexed (hs id hd hold)
  | none =>
    obtain ⟨hd, hempty, hext⟩ := h.new id h' hold ht
    apply hext.indexed
    rw [hempty]
    exact SymbolTable.indexed_empty

theorem header?_modifyProcedure (s : Session) (r : ProcRef) (k : Procedure → Procedure) :
    (s.modifyProcedure r k).header? = s.header? := by
  funext id
  simp only [header?, block?]
  unfold modifyProcedure
  split <;> rfl

theorem extends_declare (s : Session) (f : Frame) (d : Declaration) : s.Extends (s.declare f d) := by
  obtain ⟨cls, counters, _, _, _, _, heq⟩ | ⟨counters, _, _, heq⟩ := s.declare_cases f d
  · rw [heq]
    let x := s.declared f d
    let t : Session := { s with counters, classes := s.classes.appendSymbol cls x }
    have ht : s.Extends t := extends_of_headers rfl
    unfold enterMember
    split
    · exact ht.trans (t.extends_enterLocal 0 { x with block := 0 })
    · exact ht
  · rw [heq]
    have ht : s.Extends { s with counters } := extends_of_headers rfl
    exact ht.trans (extends_enterLocal _ f.block _)

end Session

namespace Lowering

variable {K : OpCode → Prop} {f g : Frame} {s t : Session} {close : Session → Session → Prop}

theorem Change.extends (h : Change K f s t) : s.Extends t := by
  obtain hsame | ⟨d, rfl⟩ := h.sameNames_or_declare
  · exact Session.extends_of_headers hsame.headers
  · exact s.extends_declare f d

theorem Opens.extends (h : Opens f s g t close) : s.Extends t := by
  cases h with
  | block dialect => exact Session.extends_of_new rfl (Session.header?_openBlock s f dialect)
  | procedure p message =>
    exact Session.extends_of_new rfl (Session.header?_openProcedure s f p message)
  | cls c classes => exact Session.extends_of_headers rfl

theorem Opens.header?_close (h : Opens f s g t close) {u v : Session} (hc : close u v) :
    v.header? = u.header? := by
  cases h with
  | procedure =>
    obtain rfl | ⟨entry, rfl⟩ := hc
    · rfl
    · exact Session.header?_modifyProcedure _ _ _
  | _ => rw [hc]

/-- Lowering only appends to the tables of blocks. -/
theorem Evolves.extends (h : Evolves K f s t) : s.Extends t := by
  induction h with
  | refl => exact .refl _
  | step _ hc ih => exact ih.trans hc.extends
  | inner _ ho _ hw ih ihg =>
    apply (ih.trans ho.extends).trans
    exact ihg.trans (Session.extends_of_headers (ho.header?_close hw))

end Lowering

/-! ## Names at the top level of a unit

Code at the top level of a unit belongs to no class and no procedure. It sees the symbols of its own block,
and behind these those of the first block, but no others (`resolve_top`).
-/

namespace Session

/-- The first block has a symbol of the name that belongs to no class and no procedure. -/
def HasGlobal (s : Session) (name : String) : Prop :=
  ∃ i x, s.symbol? ⟨.block 0, i⟩ = some x ∧ x.name = name ∧ x.isMember = false ∧ x.function = none

theorem HasGlobal.extends {s t : Session} {name : String} (h : s.HasGlobal name) (hst : s.Extends t) :
    t.HasGlobal name := by
  obtain ⟨i, x, hx, hglobal⟩ := h
  exact ⟨i, x, hst.symbol? hx, hglobal⟩

/-- The block has no symbol of the name. -/
def Lacks (s : Session) (block : Nat) (name : String) : Prop :=
  ∀ i x, s.symbol? ⟨.block block, i⟩ = some x → x.name ≠ name

/-- The block is the first one or a child of the first one, which has no parent. -/
structure IsTop (s : Session) (block : Nat) : Prop where
  first : ∃ h, s.header? 0 = some h ∧ h.parent = none
  inner : block ≠ 0 → ∃ h, s.header? block = some h ∧ h.parent = some 0

theorem IsTop.extends {s t : Session} {block : Nat} (h : s.IsTop block) (hst : s.Extends t) :
    t.IsTop block := by
  constructor
  · obtain ⟨hd, hs, hparent⟩ := h.first
    obtain ⟨hd', ht, hext⟩ := hst.old 0 hd hs
    exact ⟨hd', ht, hext.parent.trans hparent⟩
  · intro hne
    obtain ⟨hd, hs, hparent⟩ := h.inner hne
    obtain ⟨hd', ht, hext⟩ := hst.old block hd hs
    exact ⟨hd', ht, hext.parent.trans hparent⟩

/-- The blocks around the top level of a unit. -/
def topBlocks (block : Nat) : List Nat := if block = 0 then [0] else [block, 0]

theorem IsTop.enclosing? {s : Session} {block : Nat} (h : s.IsTop block) :
    s.enclosing? block = some (topBlocks block) := by
  obtain ⟨hd, hzero, hnone⟩ := h.first
  obtain ⟨b, hb, rfl⟩ := header?_eq_some.mp hzero
  have hlt := lt_of_header? hzero
  have hfirst (fuel : Nat) : s.enclosingFrom (fuel + 1) 0 = some [0] := by
    have hparent : b.parent = none := hnone
    simp only [enclosingFrom, hb, hparent]
  unfold Session.enclosing? topBlocks
  by_cases hblock : block = 0
  · subst hblock
    rw [if_pos rfl]
    obtain ⟨fuel, hfuel⟩ : ∃ fuel, s.blocks.size = fuel + 1 := ⟨s.blocks.size - 1, by omega⟩
    rw [hfuel, hfirst]
  · rw [if_neg hblock]
    obtain ⟨k, hk, hsome⟩ := h.inner hblock
    have hlt' := lt_of_header? hk
    obtain ⟨c, hc, rfl⟩ := header?_eq_some.mp hk
    obtain ⟨fuel, hfuel⟩ : ∃ fuel, s.blocks.size = fuel + 1 + 1 := ⟨s.blocks.size - 2, by omega⟩
    have hparent : c.parent = some 0 := hsome
    rw [hfuel, enclosingFrom, hc]
    simp only [hparent, hfirst, Option.map_some]

end Session

namespace Lowering.Sight

/-- At the top level a name is looked up in the blocks around and nowhere else. -/
theorem resolve_top {v : Sight} (hscope : v.frame.scope = .global) (name : String) :
    v.resolve name =
      match v.blocks.findSome? (v.inBlock? name) with
      | some r => .found r
      | none => .unbound := by
  have hprocedure : v.inProcedure? name = none := by
    unfold inProcedure?
    rw [hscope]
    rfl
  unfold resolve isNested inScope inBlocks
  rw [hprocedure, hscope]
  simp only [Scope.global, Option.isSome_none, Bool.false_and, Bool.false_eq_true, if_false, ite_self]
  exact if_neg (Option.some_ne_none _).symm

/-- What is found at the top level is a symbol of that name in the own block or in the first one, and no
member. -/
theorem resolve_top_found {v : Sight} (hscope : v.frame.scope = .global)
    (hblocks : v.blocks = Session.topBlocks v.frame.block) (hindexed : v.session.Indexed)
    {name : String} {r : SymbolRef} (hr : v.resolve name = .found r) :
    ∃ i x, (r = ⟨.block v.frame.block, i⟩ ∨ r = ⟨.block 0, i⟩) ∧ v.session.symbol? r = some x ∧
      x.name = name ∧ x.isMember = false ∧ x.function = none := by
  rw [resolve_top hscope, hblocks] at hr
  cases hfind : (Session.topBlocks v.frame.block).findSome? (v.inBlock? name) with
  | none =>
    rw [hfind] at hr
    cases hr
  | some r' =>
    rw [hfind] at hr
    cases hr
    obtain ⟨b, hb, hin⟩ := List.exists_of_findSome?_eq_some hfind
    obtain ⟨i, hi, rfl⟩ := Option.map_eq_some_iff.mp hin
    have hblock : b = v.frame.block ∨ b = 0 := by
      unfold Session.topBlocks at hb
      split at hb
      · exact .inr (List.mem_singleton.mp hb)
      · simpa using hb
    cases hheader : v.session.header? b with
    | none =>
      rw [symbolsOf_eq, hheader] at hi
      cases hi
    | some hd =>
      rw [symbolsOf_eq, hheader] at hi
      obtain ⟨x, hx, hname, hvisible⟩ := (hindexed b hd hheader).name_of_findNamed? hi
      have hsymbol : v.session.symbol? ⟨.block b, i⟩ = some x := by
        rw [Session.symbol?_block, hheader]
        exact hx
      have hfunction : v.frame.scope.function = none := by
        rw [hscope]
        rfl
      unfold isVisible at hvisible
      rw [hfunction] at hvisible
      simp only [Bool.and_eq_true, Bool.not_eq_true'] at hvisible
      refine ⟨i, x, ?_, hsymbol, hname, hvisible.1.1, by simpa using hvisible.2⟩
      exact hblock.imp (fun h => by rw [h]) fun h => by rw [h]

/-- A variable outside of classes and procedures is found in its block, if no other one of its name stands
before it. -/
theorem inBlock?_global {v : Sight} (hparse : v.session.isParsingModule = false)
    (hindexed : v.session.Indexed) {block i : Nat} {x : Symbol}
    (hx : v.session.symbol? ⟨.block block, i⟩ = some x) (hmember : x.isMember = false)
    (hfunction : x.function = none) :
    ∃ j y, v.inBlock? x.name block = some ⟨.block block, j⟩ ∧ j ≤ i ∧
      v.session.symbol? ⟨.block block, j⟩ = some y ∧ y.name = x.name := by
  rw [Session.symbol?_block] at hx
  obtain ⟨hd, hheader, hget⟩ := Option.bind_eq_some_iff.mp hx
  have hvisible : v.isVisible x = true := by simp [isVisible, hmember, hparse, hfunction]
  obtain ⟨j, y, hfind, hle, hy, hname⟩ := (hindexed block hd hheader).findNamed?_le hget hvisible
  refine ⟨j, y, ?_, hle, ?_, hname⟩
  · unfold inBlock?
    rw [symbolsOf_eq, hheader]
    show (hd.symbols.findNamed? x.name v.isVisible).map _ = _
    rw [hfind]
    rfl
  · rw [Session.symbol?_block, hheader]
    exact hy

/-- Nothing is found in a block that lacks the name. -/
theorem inBlock?_of_lacks {v : Sight} (hindexed : v.session.Indexed) {block : Nat} {name : String}
    (h : v.session.Lacks block name) : v.inBlock? name block = none := by
  unfold inBlock?
  rw [symbolsOf_eq]
  cases hheader : v.session.header? block with
  | none => rfl
  | some hd =>
    show (hd.symbols.findNamed? name v.isVisible).map _ = none
    rw [(hindexed block hd hheader).findNamed?_eq_none]
    · rfl
    · intro i x hx
      apply h i x
      rw [Session.symbol?_block, hheader]
      exact hx

/-- A variable of the first block is found from the top level of a unit whose own block lacks the name. -/
theorem resolve_global {v : Sight} (hscope : v.frame.scope = .global)
    (hblocks : v.blocks = Session.topBlocks v.frame.block) (hindexed : v.session.Indexed)
    (hparse : v.session.isParsingModule = false) {i : Nat} {x : Symbol}
    (hx : v.session.symbol? ⟨.block 0, i⟩ = some x) (hmember : x.isMember = false)
    (hfunction : x.function = none)
    (hlacks : v.frame.block ≠ 0 → v.session.Lacks v.frame.block x.name) :
    ∃ j y, v.resolve x.name = .found ⟨.block 0, j⟩ ∧ j ≤ i ∧
      v.session.symbol? ⟨.block 0, j⟩ = some y ∧ y.name = x.name := by
  obtain ⟨j, y, hfirst, hle, hy, hname⟩ := inBlock?_global hparse hindexed hx hmember hfunction
  refine ⟨j, y, ?_, hle, hy, hname⟩
  have hfind : v.blocks.findSome? (v.inBlock? x.name) = some ⟨.block 0, j⟩ := by
    rw [hblocks]
    unfold Session.topBlocks
    split
    · rw [List.findSome?_cons, hfirst]
    · next hne =>
      have hown := inBlock?_of_lacks hindexed (hlacks hne)
      rw [List.findSome?_cons, hown, List.findSome?_cons, hfirst]
  rw [resolve_top hscope, hfind]

/-- A name that is found is not unbound at the root of a chain either, even where the class of that name is
meant. -/
theorem rootTarget_of_found {v : Sight} {name : String} {r : SymbolRef} (h : v.resolve name = .found r) :
    v.rootTarget name ≠ .unbound := by
  unfold rootTarget
  simp only [h]
  cases v.session.classes.indexOf? name with
  | some c => split <;> simp
  | none => cases v.frame.anchor <;> simp

end Lowering.Sight

/-- What code of a frame sees is its session from its own blocks. -/
theorem Lowering.eq_of_sightIn {f : Frame} {s : Session} {v : Sight} (h : sightIn f s = .ok v) :
    v.session = s ∧ v.frame = f ∧ s.enclosing? f.block = some v.blocks := by
  have hrun : sight f { session := s } = .ok v { session := s } := by
    rw [run_sight]
    simp only [h]
  obtain ⟨_, hv, hblocks, _⟩ := sight_eq_ok.mp hrun
  exact ⟨by rw [hv], by rw [hv], hblocks⟩

end Diglot
