import Diglot.Proofs.Run

/-! # What lookups depend on

A lookup reads the symbols and parents of blocks, the classes and two flags, and nothing of the code
that has been emitted.

* `Header` is what lookups read of a block.
* `Session.SameNames` relates two sessions in which names are looked up alike.
* `Lowering.Sight.operand?` is the operand that a name is read through, if it stands for a variable.
* `Lowering.sight_eq_ok` says when lookups are possible at all.
-/

set_option autoImplicit false

namespace Diglot

open Lowering

/-! ## Headers of blocks -/

/-- What lookups read of a block. -/
structure Header where
  parent : Option Nat
  procedure : Option ProcRef
  symbols : SymbolTable

/-- The block without its code. -/
def Block.header (b : Block) : Header := ⟨b.parent, b.procedure, b.symbols⟩

namespace Session

/-- What lookups read of the block of an index. -/
def header? (s : Session) (id : Nat) : Option Header := (s.block? id).map Block.header

theorem header?_isSome (s : Session) (id : Nat) : (s.header? id).isSome = (s.block? id).isSome :=
  Option.isSome_map

theorem header?_eq_some {s : Session} {id : Nat} {h : Header} :
    s.header? id = some h ↔ ∃ b, s.block? id = some b ∧ b.header = h :=
  Option.map_eq_some_iff

theorem header?_of_block? {s : Session} {id : Nat} {b : Block} (h : s.block? id = some b) :
    s.header? id = some b.header := by
  rw [header?, h, Option.map_some]

/-- Changing a block but for its header changes no header. -/
theorem header?_modifyBlock {g : Block → Block} (hg : ∀ b, (g b).header = b.header) (s : Session)
    (id : Nat) : (s.modifyBlock id g).header? = s.header? := by
  funext other
  unfold header?
  rw [block?_modifyBlock]
  split
  · rw [Option.map_map]
    congr 1
    funext b
    exact hg b
  · rfl

/-- The header of a block, read off the header before it changed. -/
theorem header?_modifyBlock_eq {g : Block → Block} {k : Header → Header}
    (hg : ∀ b, (g b).header = k b.header) (s : Session) (id other : Nat) :
    (s.modifyBlock id g).header? other =
      if id = other then (s.header? other).map k else s.header? other := by
  unfold header?
  rw [block?_modifyBlock]
  split
  · rw [Option.map_map, Option.map_map]
    congr 1
    funext b
    exact hg b
  · rfl

/-- A new block has no symbols yet and belongs to no procedure. -/
theorem header?_addBlock (s : Session) (kind : BlockKind) (dialect : Dialect) (parent : Option Nat)
    (id : Nat) :
    (s.addBlock kind dialect parent).header? id =
      if id = s.blocks.size then some ⟨parent, none, {}⟩ else s.header? id := by
  have hpush : ∀ t : Session,
      t = { s with blocks := s.blocks.push { id := s.blocks.size, kind, dialect, parent } } →
      t.header? id = if id = s.blocks.size then some ⟨parent, none, {}⟩ else s.header? id := by
    rintro t rfl
    unfold header? block?
    rw [Array.getElem?_push]
    split <;> rfl
  cases parent with
  | none => exact hpush _ rfl
  | some p =>
    have hsame := header?_modifyBlock (g := fun b => { b with children := b.children.push s.blocks.size })
      (fun _ => rfl)
      { s with blocks := s.blocks.push { id := s.blocks.size, kind, dialect, parent := some p } } p
    exact (congrFun hsame id).trans (hpush _ rfl)

/-! ## Sessions in which names are looked up alike -/

/-- Names are looked up alike in both sessions. -/
structure SameNames (s t : Session) : Prop where
  classes : t.classes = s.classes
  procedures : t.procedures = s.procedures
  isWatching : t.isWatching = s.isWatching
  isParsingModule : t.isParsingModule = s.isParsingModule
  size : t.blocks.size = s.blocks.size
  headers : t.header? = s.header?

theorem SameNames.refl (s : Session) : s.SameNames s := ⟨rfl, rfl, rfl, rfl, rfl, rfl⟩

theorem SameNames.trans {s t u : Session} (h : s.SameNames t) (h' : t.SameNames u) :
    s.SameNames u :=
  ⟨h'.classes.trans h.classes, h'.procedures.trans h.procedures, h'.isWatching.trans h.isWatching,
    h'.isParsingModule.trans h.isParsingModule, h'.size.trans h.size, h'.headers.trans h.headers⟩

theorem sameNames_noteEmission (s : Session) (f : Frame) (pc : Nat) (i : Instruction) :
    s.SameNames (s.noteEmission f pc i) := by
  unfold noteEmission
  split <;> exact ⟨rfl, rfl, rfl, rfl, rfl, rfl⟩

theorem sameNames_modifyBlock {g : Block → Block} (hg : ∀ b, (g b).header = b.header) (s : Session)
    (id : Nat) : s.SameNames (s.modifyBlock id g) :=
  ⟨rfl, rfl, rfl, rfl, size_blocks_modifyBlock _ _ _, header?_modifyBlock hg s id⟩

/-- Emitting an instruction declares nothing. -/
theorem sameNames_emit (s : Session) (block : Nat) (i : Instruction) (span : Span) :
    s.SameNames (s.emit block i span) := by
  unfold emit
  split
  · exact ⟨rfl, rfl, rfl, rfl, rfl, rfl⟩
  · have hmap (debugMap : DebugMap) : s.SameNames { s with debugMap } :=
      ⟨rfl, rfl, rfl, rfl, rfl, rfl⟩
    refine (hmap _).trans (sameNames_modifyBlock ?_ _ block)
    intro b
    rfl

/-- Which blocks stand around a block depends on their parents alone. -/
theorem enclosing?_congr {s t : Session} (hsize : t.blocks.size = s.blocks.size)
    (hparent : ∀ id, (t.header? id).map Header.parent = (s.header? id).map Header.parent) (id : Nat) :
    t.enclosing? id = s.enclosing? id := by
  have hfuel (fuel id : Nat) : t.enclosingFrom fuel id = s.enclosingFrom fuel id := by
    induction fuel generalizing id with
    | zero => rfl
    | succ fuel ih =>
      have hid := hparent id
      unfold enclosingFrom
      cases ht : t.block? id with
      | none =>
        cases hs : s.block? id with
        | none => rfl
        | some b => simp [header?, ht, hs] at hid
      | some b =>
        cases hs : s.block? id with
        | none => simp [header?, ht, hs] at hid
        | some b' =>
          have hb : b.parent = b'.parent := by simpa [header?, ht, hs, Block.header] using hid
          simp only [hb]
          cases b'.parent with
          | none => rfl
          | some p => simp only [ih]
  unfold enclosing?
  rw [hsize, hfuel]

namespace SameNames

variable {s t : Session} (h : s.SameNames t)
include h

theorem block?_isSome (id : Nat) : (t.block? id).isSome = (s.block? id).isSome := by
  rw [← header?_isSome, ← header?_isSome, h.headers]

theorem enclosing?_eq (id : Nat) : t.enclosing? id = s.enclosing? id :=
  enclosing?_congr h.size (fun id => by rw [h.headers]) id

end SameNames

theorem symbol?_block (s : Session) (id i : Nat) :
    s.symbol? ⟨.block id, i⟩ = (s.header? id).bind fun h => h.symbols.get? i := by
  unfold symbol? header?
  dsimp only
  cases s.block? id <;> rfl

theorem SameNames.symbol?_eq {s t : Session} (h : s.SameNames t) (r : SymbolRef) :
    t.symbol? r = s.symbol? r := by
  obtain ⟨owner, i⟩ := r
  cases owner with
  | cls id =>
    unfold symbol?
    rw [h.classes]
  | block id => rw [symbol?_block, symbol?_block, h.headers]

end Session

/-! ## Looking names up -/

namespace Lowering.Sight

/-- Through which operand a name is read, if it stands for a variable. -/
def operand? (v : Sight) (name : String) : Option Operand :=
  if name == thisKeyword then none
  else
    match v.rootTarget name with
    | .symbol r => (v.session.symbol? r).map Operand.ofSymbol
    | _ => none

theorem operand?_eq_some {v : Sight} {name : String} {x : Operand} (h : v.operand? name = some x) :
    (name == thisKeyword) = false ∧
      ∃ r symbol, v.rootTarget name = .symbol r ∧ v.session.symbol? r = some symbol ∧
        Operand.ofSymbol symbol = x := by
  unfold operand? at h
  split at h
  · cases h
  · next hthis =>
    refine ⟨Bool.eq_false_iff.mpr hthis, ?_⟩
    split at h
    · next r hr =>
      obtain ⟨symbol, hsymbol, hx⟩ := Option.map_eq_some_iff.mp h
      exact ⟨r, symbol, hr, hsymbol, hx⟩
    · cases h

theorem symbolsOf_eq (v : Sight) (id : Nat) :
    v.symbolsOf id = ((v.session.header? id).map Header.symbols).getD {} := by
  unfold symbolsOf Session.header?
  cases v.session.block? id <;> rfl

section
variable {s t : Session} (h : s.SameNames t) (f : Frame) (blocks : List Nat)
include h

theorem symbolsOf_congr (id : Nat) : symbolsOf ⟨t, f, blocks⟩ id = symbolsOf ⟨s, f, blocks⟩ id := by
  rw [symbolsOf_eq, symbolsOf_eq]
  dsimp only
  rw [h.headers]

theorem inBlock?_congr (name : String) :
    inBlock? ⟨t, f, blocks⟩ name = inBlock? ⟨s, f, blocks⟩ name := by
  have hvis : isVisible ⟨t, f, blocks⟩ = isVisible ⟨s, f, blocks⟩ := by
    funext x
    simp only [isVisible, h.isParsingModule]
  funext id
  unfold inBlock?
  rw [symbolsOf_congr h f blocks, hvis]

theorem inProcedure?_congr (name : String) :
    inProcedure? ⟨t, f, blocks⟩ name = inProcedure? ⟨s, f, blocks⟩ name := by
  simp only [inProcedure?, symbolsOf_congr h f blocks]

theorem isStaticMember_congr (m : MemberRef) :
    isStaticMember ⟨t, f, blocks⟩ m = isStaticMember ⟨s, f, blocks⟩ m := by
  simp only [isStaticMember, h.classes]

theorem staticEntry?_congr (cls : Nat) (name : String) :
    staticEntry? ⟨t, f, blocks⟩ cls name = staticEntry? ⟨s, f, blocks⟩ cls name := by
  unfold staticEntry?
  rw [symbolsOf_congr h f blocks]

theorem inClass_congr (cls : Nat) (name : String) :
    inClass ⟨t, f, blocks⟩ cls name = inClass ⟨s, f, blocks⟩ cls name := by
  unfold inClass
  rw [h.classes]
  cases s.classes.lookupMember cls name f.scope.classScope with
  | missing => rfl
  | inaccessible m => rfl
  | found m =>
    dsimp only
    rw [isStaticMember_congr h f blocks, staticEntry?_congr h f blocks]

theorem inBlocks_congr (name : String) :
    inBlocks ⟨t, f, blocks⟩ name = inBlocks ⟨s, f, blocks⟩ name := by
  simp only [inBlocks, inProcedure?_congr h f blocks, inBlock?_congr h f blocks]

theorem inScope_congr (name : String) :
    inScope ⟨t, f, blocks⟩ name = inScope ⟨s, f, blocks⟩ name := by
  simp only [inScope, inBlocks_congr h f blocks, inClass_congr h f blocks]

theorem resolve_congr (name : String) :
    resolve ⟨t, f, blocks⟩ name = resolve ⟨s, f, blocks⟩ name := by
  have hnested : isNested ⟨t, f, blocks⟩ = isNested ⟨s, f, blocks⟩ := rfl
  unfold resolve
  rw [hnested, inBlock?_congr h f blocks, inProcedure?_congr h f blocks, inScope_congr h f blocks]
  dsimp only
  rw [h.isWatching]

/-- Where no name changes its meaning, each name is read through the same operand as before. -/
theorem operand?_congr : operand? ⟨t, f, blocks⟩ = operand? ⟨s, f, blocks⟩ := by
  funext name
  simp only [operand?, rootTarget, resolve_congr h f blocks, h.classes, h.symbol?_eq]

end

end Lowering.Sight

theorem Session.enclosing?_isSome {s : Session} {id : Nat} {blocks : List Nat}
    (h : s.enclosing? id = some blocks) : (s.block? id).isSome := by
  unfold enclosing? at h
  cases hn : s.blocks.size with
  | zero =>
    rw [hn, enclosingFrom] at h
    cases h
  | succ n =>
    rw [hn, enclosingFrom] at h
    cases hb : s.block? id with
    | none =>
      rw [hb] at h
      cases h
    | some b => rfl

/-- What code can see is there if the blocks around it and the body of its procedure are. -/
theorem Lowering.sight_eq_ok {f : Frame} {s t : State} {v : Sight} :
    sight f s = .ok v t ↔
      t = s ∧ v = ⟨s.session, f, v.blocks⟩ ∧ s.session.enclosing? f.block = some v.blocks ∧
        ∀ body, f.scope.body = some body → (s.session.block? body).isSome := by
  unfold sight
  simp only [run_bind, run_read, run_getSession]
  cases hb : s.session.enclosing? f.block with
  | none =>
    constructor
    · intro h
      cases h
    · rintro ⟨_, _, h, _⟩
      cases h
  | some blocks =>
    cases hbody : f.scope.body with
    | none =>
      constructor
      · intro h
        cases h
        exact ⟨rfl, rfl, rfl, fun _ h => by cases h⟩
      · rintro ⟨rfl, hv, h, _⟩
        cases h
        exact congrArg (EStateM.Result.ok · t) hv.symm
    | some body =>
      simp only [run_bind, run_getBlock]
      cases hblock : s.session.block? body with
      | none =>
        constructor
        · intro h
          cases h
        · rintro ⟨_, _, _, h⟩
          have := h body rfl
          simp [hblock] at this
      | some b =>
        constructor
        · intro h
          cases h
          refine ⟨rfl, rfl, rfl, fun id h => ?_⟩
          cases h
          simp [hblock]
        · rintro ⟨rfl, hv, h, _⟩
          cases h
          exact congrArg (EStateM.Result.ok · t) hv.symm

end Diglot
