import Diglot.Proofs.Chains.Temporary
import Diglot.Proofs.Spare.Update

/-! # Names that are still to be made up

The name of a made-up variable has a number, which counts up. No symbol has the name of a number that is still
to come, as long as the source has no such names (`Session.HasSpare`), so these names stand for nothing
(`Session.HasSpare.sight`). Statements keep it that way: they declare the names that they are told to store
into, the names that the unit assigns later, and the next made-up ones.
-/

set_option autoImplicit false

namespace Diglot

open Lowering

/-! ## Tables without a name -/

/-- The table has no symbol of the name. -/
structure SymbolTable.Lacks (t : SymbolTable) (name : String) : Prop where
  indices : t.indicesOf name = []
  symbols : ∀ i x, t.get? i = some x → x.name ≠ name

namespace SymbolTable

variable {t : SymbolTable} {name : String}

theorem lacks_empty (name : String) : ({} : SymbolTable).Lacks name := by
  refine ⟨rfl, fun i x hx => ?_⟩
  cases hx

theorem Lacks.append (h : t.Lacks name) {x : Symbol} (hx : x.name ≠ name) : (t.append x).Lacks name := by
  refine ⟨?_, fun i y hy => ?_⟩
  · rw [indicesOf_append, if_neg (Ne.symm hx)]
    exact h.indices
  · obtain hold | ⟨-, rfl⟩ := get?_append_cases hy
    · exact h.symbols i y hold
    · exact hx

theorem Lacks.findNamed? (h : t.Lacks name) (p : Symbol → Bool) : t.findNamed? name p = none := by
  unfold SymbolTable.findNamed?
  rw [h.indices]
  rfl

end SymbolTable

/-- A member that no class declares is missing. -/
theorem ClassTable.lookupMember_missing {t : ClassTable} {name : String}
    (h : ∀ i c, t.get? i = some c → c.symbols.Lacks name) (cls : Nat) (context : Option Nat) :
    t.lookupMember cls name context = .missing := by
  have hsearch (owners : List Nat) : t.searchMember context (declaredSymbol name) none owners = .missing := by
    induction owners with
    | nil => rfl
    | cons owner rest ih =>
      have hnone : (t.get? owner).bind (declaredSymbol name) = none := by
        cases hc : t.get? owner with
        | none => rfl
        | some c =>
          simp only [declaredSymbol, SymbolTable.indexInFunction?, Option.bind_some, (h owner c hc).findNamed?,
            Option.map_none]
      unfold searchMember
      rw [hnone]
      exact ih
  exact hsearch _

/-! ## Names that are spent -/

/-- The name is none of those that are made up from the number `k` on. -/
def IsSpent (k : Nat) (name : String) : Prop := ∀ j, k ≤ j → name ≠ temporaryName j

theorem IsPlainName.isSpent {name : String} (h : IsPlainName name) (k : Nat) : IsSpent k name := by
  rintro j - rfl
  rw [IsPlainName, isTemporaryName_temporaryName] at h
  cases h

theorem isSpent_temporaryName {j k : Nat} (h : j < k) : IsSpent k (temporaryName j) := by
  intro i hi heq
  have := temporaryName_injective heq
  omega

/-- A made-up name of another kind is none of a split chain. -/
theorem isSpent_of_letter {name : String} {c : Char} {rest : List Char} (h : name.toList = '%' :: c :: rest)
    (hc : c ≠ 's') (k : Nat) : IsSpent k name := by
  rintro j - rfl
  rw [temporaryName, String.toList_append] at h
  simp only [String.reduceToList, List.cons_append, List.cons.injEq] at h
  exact hc h.2.1.symm

/-! ## Sessions without a name -/

namespace Session

/-- No symbol of the session has the name. -/
structure HasNone (s : Session) (name : String) : Prop where
  blocks : ∀ id h, s.header? id = some h → h.symbols.Lacks name
  classes : ∀ i c, s.classes.get? i = some c → c.symbols.Lacks name

variable {s t : Session} {name : String}

theorem HasNone.congr (h : s.HasNone name) (hheaders : t.header? = s.header?) (hclasses : t.classes = s.classes) :
    t.HasNone name := ⟨hheaders ▸ h.blocks, hclasses ▸ h.classes⟩

theorem HasNone.symbolsOf {v : Sight} (h : v.session.HasNone name) (block : Nat) : (v.symbolsOf block).Lacks name := by
  rw [Sight.symbolsOf_eq]
  cases hheader : v.session.header? block with
  | none => exact SymbolTable.lacks_empty name
  | some hd => exact h.blocks block hd hheader

/-- What no symbol is called stands for nothing. -/
theorem HasNone.resolve {v : Sight} (h : v.session.HasNone name) : v.resolve name = .unbound := by
  have hblock (block : Nat) : v.inBlock? name block = none := by
    unfold Sight.inBlock?
    rw [(h.symbolsOf block).findNamed?]
    rfl
  have hprocedure : v.inProcedure? name = none := by
    unfold Sight.inProcedure?
    split
    · next body _ _ =>
      have hlacks := (h.symbolsOf body).findNamed?
      unfold SymbolTable.indexInFunction?
      rw [hlacks]
      rfl
    · rfl
  have hblocks : v.inBlocks name = .unbound := by
    have hnone : v.blocks.findSome? (v.inBlock? name) = none :=
      List.findSome?_eq_none_iff.mpr fun block _ => hblock block
    unfold Sight.inBlocks
    rw [hprocedure, hnone]
  have hclass (cls : Nat) : v.inClass cls name = .unbound := by
    unfold Sight.inClass
    rw [ClassTable.lookupMember_missing h.classes]
  have hscope : v.inScope name = .unbound := by
    unfold Sight.inScope
    split
    · exact hblocks
    · rw [hclass]
      exact hblocks
  unfold Sight.resolve
  simp only [hblock, hprocedure, hscope, ite_self]

theorem HasNone.enterLocal (h : s.HasNone name) (block : Nat) {x : Symbol} (hx : x.name ≠ name) :
    (s.enterLocal block x).HasNone name := by
  refine ⟨fun id hd hheader => ?_, h.classes⟩
  rw [header?_enterLocal] at hheader
  split at hheader
  · obtain ⟨hd', hheader', rfl⟩ := Option.map_eq_some_iff.mp hheader
    exact (h.blocks id hd' hheader').append hx
  · exact h.blocks id hd hheader

theorem HasNone.appendSymbol (h : s.HasNone name) (cls : Nat) {x : Symbol} (hx : x.name ≠ name) :
    { s with classes := s.classes.appendSymbol cls x }.HasNone name := by
  refine ⟨h.blocks, fun i c hc => ?_⟩
  change (s.classes.classes.modify cls _)[i]? = some c at hc
  rw [Array.getElem?_modify] at hc
  split at hc
  · obtain ⟨c', hc', rfl⟩ := Option.map_eq_some_iff.mp hc
    exact (h.classes i c' hc').append hx
  · exact h.classes i c hc

/-- No symbol has a name that is still to be made up. -/
def HasSpare (s : Session) : Prop := ∀ k, s.counters.temporaries ≤ k → s.HasNone (temporaryName k)

theorem HasSpare.sight (h : s.HasSpare) (f : Frame) : (sightFrom f s).HasSpare := fun k hk => (h k hk).resolve

theorem HasSpare.congr (h : s.HasSpare) (hheaders : t.header? = s.header?) (hclasses : t.classes = s.classes)
    (hcount : s.counters.temporaries ≤ t.counters.temporaries) : t.HasSpare :=
  fun k hk => (h k (Nat.le_trans hcount hk)).congr hheaders hclasses

/-- From the number `k` on, names are still to be made up. `w` tells that a watch expression is lowered. -/
structure Unspent (w : Bool) (k : Nat) (s : Session) : Prop where
  isWatching : s.isWatching = w
  hasSpare : s.HasSpare
  count : k ≤ s.counters.temporaries

theorem Unspent.congr {w : Bool} {k : Nat} (h : s.Unspent w k) (hwatching : t.isWatching = s.isWatching)
    (hheaders : t.header? = s.header?) (hclasses : t.classes = s.classes)
    (hcount : s.counters.temporaries ≤ t.counters.temporaries) : t.Unspent w k :=
  ⟨hwatching.trans h.isWatching, h.hasSpare.congr hheaders hclasses hcount, Nat.le_trans h.count hcount⟩

/-- The name with the next number is taken. -/
theorem Unspent.reserve {w : Bool} {k : Nat} (h : s.Unspent w k) :
    Unspent w (s.counters.temporaries + 1)
      { s with counters := { s.counters with temporaries := s.counters.temporaries + 1 } } :=
  ⟨h.isWatching, h.hasSpare.congr rfl rfl (Nat.le_succ _), Nat.le_refl _⟩

theorem Unspent.le {w : Bool} {j k : Nat} (h : s.Unspent w k) (hjk : j ≤ k) : s.Unspent w j :=
  ⟨h.isWatching, h.hasSpare, Nat.le_trans hjk h.count⟩

theorem Unspent.enterLocal {w : Bool} {k : Nat} (h : s.Unspent w k) (block : Nat) {x : Symbol} (hx : IsSpent k x.name) :
    (s.enterLocal block x).Unspent w k :=
  ⟨h.isWatching, fun j hj => (h.hasSpare j hj).enterLocal block (hx j (Nat.le_trans h.count hj)), h.count⟩

theorem Unspent.appendSymbol {w : Bool} {k : Nat} (h : s.Unspent w k) (cls : Nat) {x : Symbol}
    (hx : IsSpent k x.name) : Unspent w k { s with classes := s.classes.appendSymbol cls x } :=
  ⟨h.isWatching, fun j hj => (h.hasSpare j hj).appendSymbol cls (hx j (Nat.le_trans h.count hj)), h.count⟩

theorem HasNone.addBlock (h : s.HasNone name) (kind : BlockKind) (dialect : Dialect) (parent : Option Nat) :
    (s.addBlock kind dialect parent).HasNone name := by
  refine ⟨fun id hd hheader => ?_, ?_⟩
  · rw [header?_addBlock] at hheader
    split at hheader
    · cases hheader
      exact SymbolTable.lacks_empty name
    · exact h.blocks id hd hheader
  · cases parent <;> exact h.classes

theorem HasNone.modifyClass (h : s.HasNone name) {g : Class → Class} (hg : ∀ c, (g c).symbols = c.symbols)
    (cls : Nat) : { s with classes := s.classes.modify cls g }.HasNone name := by
  refine ⟨h.blocks, fun i c hc => ?_⟩
  change (s.classes.classes.modify cls g)[i]? = some c at hc
  rw [Array.getElem?_modify] at hc
  split at hc
  · obtain ⟨c', hc', rfl⟩ := Option.map_eq_some_iff.mp hc
    rw [hg]
    exact h.classes i c' hc'
  · exact h.classes i c hc

theorem HasNone.appendClass (h : s.HasNone name) {c : Class} (hc : c.symbols.Lacks name) {classes : ClassTable}
    (happ : s.classes.append? c = some classes) : { s with classes }.HasNone name := by
  refine ⟨h.blocks, fun i d hd => ?_⟩
  obtain hold | rfl := Session.get?_append?_cases happ hd
  · exact h.classes i d hold
  · exact hc

section
variable {w : Bool} {k : Nat} (h : s.Unspent w k)
include h

theorem Unspent.addBlock (kind : BlockKind) (dialect : Dialect) (parent : Option Nat) :
    (s.addBlock kind dialect parent).Unspent w k := by
  refine ⟨?_, fun j hj => (h.hasSpare j ?_).addBlock kind dialect parent, ?_⟩
  · cases parent <;> exact h.isWatching
  · rwa [counters_addBlock] at hj
  · rw [counters_addBlock]
    exact h.count

theorem Unspent.modifyBlock {g : Block → Block} (hg : ∀ b, (g b).symbols = b.symbols) (id : Nat) :
    (s.modifyBlock id g).Unspent w k := by
  refine ⟨h.isWatching, fun j hj => ⟨fun i hd hheader => ?_, (h.hasSpare j hj).classes⟩, h.count⟩
  rw [header?, block?_modifyBlock] at hheader
  split at hheader
  · obtain ⟨b, hb, rfl⟩ := Option.map_eq_some_iff.mp hheader
    obtain ⟨b', hb', rfl⟩ := Option.map_eq_some_iff.mp hb
    have hlacks := (h.hasSpare j hj).blocks i b'.header (header?_of_block? hb')
    change (g b').symbols.Lacks _
    rwa [hg]
  · exact (h.hasSpare j hj).blocks i hd hheader

theorem Unspent.emit (block : Nat) (i : Instruction) (span : Span) : (s.emit block i span).Unspent w k := by
  have hsame := s.sameNames_emit block i span
  refine h.congr hsame.isWatching hsame.headers hsame.classes ?_
  unfold Session.emit
  split <;> exact Nat.le_refl _

theorem Unspent.modifyClass {g : Class → Class} (hg : ∀ c, (g c).symbols = c.symbols) (cls : Nat) :
    Session.Unspent w k { s with classes := s.classes.modify cls g } :=
  ⟨h.isWatching, fun j hj => (h.hasSpare j hj).modifyClass hg cls, h.count⟩

theorem Unspent.modifyProcedure (r : ProcRef) (g : Procedure → Procedure) : (s.modifyProcedure r g).Unspent w k := by
  unfold Session.modifyProcedure
  split
  · exact h.congr rfl rfl rfl (Nat.le_refl _)
  · apply h.modifyClass
    exact fun _ => rfl

theorem Unspent.appendClass {c : Class} (hc : ∀ j, c.symbols.Lacks (temporaryName j)) {classes : ClassTable}
    (happ : s.classes.append? c = some classes) : Session.Unspent w k { s with classes } :=
  ⟨h.isWatching, fun j hj => (h.hasSpare j hj).appendClass (hc j) happ, h.count⟩

end

end Session

namespace Lowering

/-! ## Statements keep names unspent -/

section
variable {w : Bool} {k : Nat} {f : Frame}

theorem endures_unspent (w : Bool) (k block : Nat) : Endures (Session.Unspent w k) 0 block where
  log _ _ h := h.congr rfl rfl rfl (Nat.le_refl _)
  diagnostics _ _ h := h.congr rfl rfl rfl (Nat.le_refl _)
  emit _ i span _ h := h.emit block i span
  lateVariable _ _ h := h.congr rfl rfl rfl (Nat.le_refl _)
  lateMember _ _ _ _ h := h.congr rfl rfl rfl (Nat.le_refl _)
  lateFunction _ _ h := h.congr rfl rfl rfl (Nat.le_refl _)
  known _ _ := Nat.zero_le _

theorem carries_unspent (k : Nat) (f : Frame) : Carries (Session.Unspent false k) 0 f where
  endures := endures_unspent _ k f.block
  isWatching _ h := h.isWatching
  uid _ _ h := h.congr rfl rfl rfl (Nat.le_refl _)
  code s g hg _ h := by
    have hsame := Session.sameNames_modifyBlock (fun b => (hg b).1) s f.block
    exact h.congr hsame.isWatching hsame.headers hsame.classes (Nat.le_refl _)

namespace Sparing

/-- What is declared under a name that is spent leaves the others unspent. -/
theorem allocateSpent {d : Declaration} (hd : IsSpent k d.name) : Spares (Session.Unspent w k) f (Lowering.allocate d) := by
  refine allocateWith (P := fun x => IsSpent k x.name) (fun _ _ => hd) (fun s bucket size hs => ?_)
    (fun s cls x hx hs => hs.appendSymbol cls hx) fun s id block x hx hs => hs.enterLocal id hx
  exact hs.congr rfl rfl rfl (temporaries_countersAfter ..).ge

/-- Looking ahead declares names that the unit assigns later. -/
theorem probeSpent (hforward : ∀ name ∈ f.forward, IsSpent k name) (node : Node) :
    Spares (Session.Unspent w k) f (Lowering.probe node) := by
  refine probeDeclaring (endures_unspent _ k f.block) (fun name => withFrame ?_) node
  by_cases hname : f.forward.contains name = true
  · rw [if_pos hname]
    refine andThen sight fun v => ite (andThen (allocateSpent (hforward name ?_)) fun _ => pure trivial) (pure trivial)
    exact List.contains_iff_mem.mp hname
  · rw [if_neg hname]
    exact pure trivial

/-- A store declares no other name than that of its target. -/
theorem assignSpent (target : Node) (type : Ty) (htarget : ∀ ident, target = .identifier ident → IsSpent k ident.name) :
    Spares (Session.Unspent w k) f (Lowering.assignTo target type) := by
  have hI := endures_unspent w k f.block
  refine assignFound hI target type fun ident hident => andThen sight fun v => ?_
  have hallocate := allocateSpent (w := w) (f := f) (d := { name := ident.name, type := declaredType type })
    (htarget ident hident)
  split
  · exact pure trivial
  · exact andThen (report hI _ _ _) fun _ => hallocate
  · exact hallocate

/-- A statement leaves the names unspent that are made up behind it. -/
theorem statementSpent (hforward : ∀ name ∈ f.forward, IsSpent k name) (target value : Node) (span : Span)
    (isTemporary isLast : Bool) (htarget : ∀ ident, target = .identifier ident → IsSpent k ident.name) :
    Sparing (Session.Unspent false k) f (Lowering.graphStatement target value span isTemporary isLast) fun n => n.block = f.block :=
  graphStatementWith (carries_unspent k f) _ _ _ _ _ (probeSpent hforward value)
    fun type => assignSpent (f := { f with isTracked := true }) target type htarget

end Sparing

end

end Lowering

end Diglot
