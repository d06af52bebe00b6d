import Diglot.Proofs.Tables.Invariant

/-! # The tree of blocks

Blocks point at each other and at procedures, and procedures point back at the blocks of their bodies.

* `Block.links` is what a block points at; `Session.bodyOf?` is where a procedure points.
* `Session.IsTree` says that the pointers agree: they make one tree, in which a parent is older than its
  children. Procedures that are registered come with any block for a body; `brought` tells those.
* `Session.Sprouts` relates a session to one with another block, and `IsTree.grow` adds a block below
  another one. Everything else that lowering does leaves the pointers alone (`Change.links?_eq`,
  `Change.bodyOf?_eq`).
-/

set_option autoImplicit false

namespace Diglot

open Lowering

/-- What a block points at. -/
structure Links where
  id : Nat
  kind : BlockKind
  parent : Option Nat
  children : Array Nat
  procedure : Option ProcRef

/-- The pointers of a block, without its code and its variables. -/
def Block.links (b : Block) : Links := ⟨b.id, b.kind, b.parent, b.children, b.procedure⟩

/-- The pointers of block `i` after block `child` was put below `parent`. -/
def Links.adopt (parent : Option Nat) (i child : Nat) (l : Links) : Links :=
  if parent = some i then { l with children := l.children.push child } else l

section
variable (l : Links) (parent : Option Nat) (i child : Nat)

@[simp] theorem Links.adopt_id : (l.adopt parent i child).id = l.id := by
  unfold Links.adopt
  split <;> rfl

@[simp] theorem Links.adopt_kind : (l.adopt parent i child).kind = l.kind := by
  unfold Links.adopt
  split <;> rfl

@[simp] theorem Links.adopt_parent : (l.adopt parent i child).parent = l.parent := by
  unfold Links.adopt
  split <;> rfl

@[simp] theorem Links.adopt_procedure : (l.adopt parent i child).procedure = l.procedure := by
  unfold Links.adopt
  split <;> rfl

end

namespace Session

/-- What the block of an index points at. -/
def links? (s : Session) (i : Nat) : Option Links := (s.block? i).map Block.links

/-- The block that the body of a procedure was lowered into. -/
def bodyOf? (s : Session) (r : ProcRef) : Option Nat := (s.procedure? r).bind Procedure.block

/-- The block that a block was put below. -/
def parentOf? (s : Session) (i : Nat) : Option Nat := (s.links? i).bind Links.parent

/-- The pointers of blocks and procedures make one tree. A procedure points at a function block that points
back, or at a block that is brought. -/
structure IsTree (brought : Nat → Prop) (s : Session) : Prop where
  ids : ∀ i l, s.links? i = some l → l.id = i
  older : ∀ i l p, s.links? i = some l → l.parent = some p → p < i
  roots : ∀ i l, s.links? i = some l → l.parent = none → i = 0
  children : ∀ p l j, s.links? p = some l →
    l.children.count j = if s.parentOf? j = some p then 1 else 0
  bodies : ∀ r i, s.bodyOf? r = some i →
    (∃ l, s.links? i = some l ∧ l.kind = .function ∧ l.procedure = some r) ∨ brought i
  functions : ∀ i l, s.links? i = some l → l.kind = .function →
    ∃ r, l.procedure = some r ∧ s.bodyOf? r = some i
  languages : ∀ i l, s.links? i = some l → l.kind = .language →
    ∃ p k, l.parent = some p ∧ s.links? p = some k ∧ k.procedure = l.procedure
  globals : ∀ i l, s.links? i = some l → l.kind = .global → l.procedure = none

variable {brought : Nat → Prop}

/-! ## Pointers of a changed session -/

theorem links?_eq_some {s : Session} {i : Nat} {l : Links} :
    s.links? i = some l ↔ ∃ b, s.block? i = some b ∧ b.links = l :=
  Option.map_eq_some_iff

theorem links?_of_blocks {s t : Session} (h : t.blocks = s.blocks) : t.links? = s.links? := by
  funext i
  unfold links? block?
  rw [h]

theorem lt_of_links? {s : Session} {i : Nat} {l : Links} (h : s.links? i = some l) :
    i < s.blocks.size := by
  obtain ⟨b, hb, _⟩ := links?_eq_some.mp h
  exact (Array.getElem?_eq_some_iff.mp hb).1

/-- The pointers of a block, read off the pointers before it changed. -/
theorem links?_modifyBlock_eq {g : Block → Block} {k : Links → Links}
    (hg : ∀ b, (g b).links = k b.links) (s : Session) (i j : Nat) :
    (s.modifyBlock i g).links? j = if i = j then (s.links? j).map k else s.links? j := by
  unfold links?
  rw [block?_modifyBlock]
  split
  · rw [Option.map_map, Option.map_map]
    congr 1
    funext b
    exact hg b
  · rfl

/-- Changing a block but for its pointers. -/
theorem links?_modifyBlock {g : Block → Block} (hg : ∀ b, (g b).links = b.links) (s : Session)
    (i : Nat) : (s.modifyBlock i g).links? = s.links? := by
  funext j
  rw [links?_modifyBlock_eq (k := id) hg]
  simp

/-- A new block points at its parent, which points back. -/
theorem links?_addBlock (s : Session) (kind : BlockKind) (dialect : Dialect) {parent : Option Nat}
    (hparent : ∀ p, parent = some p → p < s.blocks.size) (i : Nat) :
    (s.addBlock kind dialect parent).links? i =
      if i = s.blocks.size then some ⟨s.blocks.size, kind, parent, #[], none⟩
      else (s.links? i).map (Links.adopt parent i s.blocks.size) := by
  have hpush : ({ s with blocks := s.blocks.push { id := s.blocks.size, kind, dialect, parent } } :
      Session).links? i =
        if i = s.blocks.size then some ⟨s.blocks.size, kind, parent, #[], none⟩ else s.links? i := by
    unfold links? block?
    rw [Array.getElem?_push]
    split <;> rfl
  cases parent with
  | none =>
    have hadopt : Links.adopt none i s.blocks.size = id := rfl
    rw [hadopt, Option.map_id]
    exact hpush
  | some p =>
    have hp := hparent p rfl
    refine (links?_modifyBlock_eq (k := fun l => { l with children := l.children.push s.blocks.size })
      (fun _ => rfl) _ p i).trans ?_
    rw [hpush]
    unfold Links.adopt
    by_cases hi : i = s.blocks.size
    · rw [if_pos hi, if_pos hi, if_neg (by omega)]
    · rw [if_neg hi, if_neg hi]
      by_cases hpi : p = i
      · simp [hpi]
      · simp [hpi]

theorem bodyOf?_congr {s t : Session} (hc : t.classes = s.classes)
    (hp : t.procedures = s.procedures) : t.bodyOf? = s.bodyOf? := by
  funext r
  unfold bodyOf?
  rw [procedure?_congr hc hp]

/-- A procedure that is registered is the only new one. -/
theorem bodyOf?_register {s : Session} {scope : Scope} {r : ProcRef}
    (h : r ≠ s.nextProcedure scope) (p : Procedure) :
    (s.register scope p).bodyOf? r = s.bodyOf? r := by
  obtain ⟨owner, i⟩ := r
  have happend (t : ProcedureTable) (q : Procedure) (hi : i ≠ t.size) :
      (t.append q).get? i = t.get? i := by
    unfold ProcedureTable.append ProcedureTable.get?
    rw [Array.getElem?_push]
    exact if_neg hi
  unfold register nextProcedure at *
  unfold bodyOf?
  cases howner : ownerClass scope with
  | none =>
    rw [howner] at h
    cases owner with
    | some c => rfl
    | none =>
      rw [procedure?_none, procedure?_none]
      rw [happend]
      rintro rfl
      exact h rfl
  | some cls =>
    rw [howner] at h
    cases owner with
    | none => rfl
    | some c =>
      rw [procedure?_some, procedure?_some]
      dsimp only [ClassTable.appendProcedure]
      rw [ClassTable.get?_modify]
      split
      · next heq =>
        subst heq
        cases hk : s.classes.get? cls with
        | none => rfl
        | some k =>
          rw [Option.map_some, Option.bind_some, Option.bind_some, happend]
          rintro rfl
          exact h (by simp [hk])
      · rfl

/-- A procedure that is registered points at the block that it comes with. -/
theorem bodyOf?_register_next {s : Session} {scope : Scope} {p : Procedure} {i : Nat}
    (h : (s.register scope p).bodyOf? (s.nextProcedure scope) = some i) : p.block = some i := by
  unfold bodyOf? register nextProcedure at h
  cases howner : ownerClass scope with
  | none =>
    rw [howner, procedure?_none] at h
    dsimp only at h
    rwa [ProcedureTable.get?_append_size] at h
  | some cls =>
    rw [howner, procedure?_some] at h
    dsimp only [ClassTable.appendProcedure] at h
    rw [ClassTable.get?_modify, if_pos rfl] at h
    cases hc : s.classes.get? cls with
    | none =>
      rw [hc] at h
      cases h
    | some c =>
      rwa [hc, Option.map_some, Option.bind_some, Option.map_some, Option.getD_some,
        ProcedureTable.get?_append_size] at h

/-! ## Growing the tree -/

/-- Only the pointers matter, and procedures may come to point at brought blocks. -/
theorem IsTree.bring {s t : Session} (h : s.IsTree brought) (hlinks : t.links? = s.links?)
    (hold : ∀ r i, s.bodyOf? r = some i → t.bodyOf? r = some i)
    (hnew : ∀ r i, t.bodyOf? r = some i → s.bodyOf? r = some i ∨ brought i) : t.IsTree brought := by
  have hparent : t.parentOf? = s.parentOf? := by
    funext i
    unfold parentOf?
    rw [hlinks]
  constructor
  · rw [hlinks]; exact h.ids
  · rw [hlinks]; exact h.older
  · rw [hlinks]; exact h.roots
  · rw [hlinks, hparent]; exact h.children
  · rw [hlinks]
    exact fun r i hr => (hnew r i hr).elim (h.bodies r i) .inr
  · rw [hlinks]
    exact fun i l hl hkind => (h.functions i l hl hkind).imp fun r hr => ⟨hr.1, hold r i hr.2⟩
  · rw [hlinks]; exact h.languages
  · rw [hlinks]; exact h.globals

theorem IsTree.congr {s t : Session} (h : s.IsTree brought) (hlinks : t.links? = s.links?)
    (hbodies : t.bodyOf? = s.bodyOf?) : t.IsTree brought := by
  refine h.bring hlinks (fun r i => ?_) fun r i => ?_ <;> rw [hbodies]
  · exact id
  · exact .inl

/-- A procedure that is registered brings the block that it comes with. -/
theorem IsTree.register {s : Session} (h : s.IsTree brought) (scope : Scope) {p : Procedure}
    (hp : ∀ i, p.block = some i → brought i) : (s.register scope p).IsTree brought := by
  have hold {r : ProcRef} (hr : r ≠ s.nextProcedure scope) := bodyOf?_register hr p
  refine h.bring (links?_of_blocks (blocks_register s scope p)) (fun r i hi => ?_) fun r i hi => ?_
  · rw [hold, hi]
    rintro rfl
    rw [bodyOf?, procedure?_nextProcedure] at hi
    cases hi
  · by_cases hr : r = s.nextProcedure scope
    · subst hr
      exact .inr (hp i (bodyOf?_register_next hi))
    · exact .inl ((hold hr).symm.trans hi)

/-- The session `t` has the blocks of `s` and one more, which is put below `parent`. -/
structure Sprouts (s t : Session) (kind : BlockKind) (parent : Option Nat) (proc : Option ProcRef) : Prop where
  below : ∀ p, parent = some p → p < s.blocks.size
  links : ∀ i, t.links? i =
    if i = s.blocks.size then some ⟨s.blocks.size, kind, parent, #[], proc⟩
    else (s.links? i).map (Links.adopt parent i s.blocks.size)

section
variable {s t : Session} {kind : BlockKind} {parent : Option Nat} {proc : Option ProcRef} {i j p : Nat}
  {k l : Links}

/-- A block is the new one, or an old one which may have got a child. -/
theorem Sprouts.cases (h : s.Sprouts t kind parent proc) (hl : t.links? i = some l) :
    (i = s.blocks.size ∧ l = ⟨s.blocks.size, kind, parent, #[], proc⟩) ∨
      i ≠ s.blocks.size ∧ ∃ k, s.links? i = some k ∧ l = Links.adopt parent i s.blocks.size k := by
  rw [h.links] at hl
  split at hl
  · next hi => exact .inl ⟨hi, (Option.some.inj hl).symm⟩
  · next hi =>
    obtain ⟨k, hk, rfl⟩ := Option.map_eq_some_iff.mp hl
    exact .inr ⟨hi, k, hk, rfl⟩

theorem Sprouts.new (h : s.Sprouts t kind parent proc) :
    t.links? s.blocks.size = some ⟨s.blocks.size, kind, parent, #[], proc⟩ := by
  rw [h.links, if_pos rfl]

theorem Sprouts.old (h : s.Sprouts t kind parent proc) (hk : s.links? i = some k) :
    t.links? i = some (Links.adopt parent i s.blocks.size k) := by
  have := lt_of_links? hk
  rw [h.links, if_neg (by omega), hk, Option.map_some]

theorem Sprouts.parentOf? (h : s.Sprouts t kind parent proc) (j : Nat) :
    t.parentOf? j = if j = s.blocks.size then parent else s.parentOf? j := by
  unfold Session.parentOf?
  rw [h.links]
  split
  · rfl
  · cases s.links? j with
    | none => rfl
    | some k => exact k.adopt_parent parent j s.blocks.size

/-- No block of a tree points at a block to come, nor does that have a parent yet. -/
theorem IsTree.lt_of_parentOf? (h : s.IsTree brought) (hp : s.parentOf? j = some p) :
    j < s.blocks.size ∧ p < s.blocks.size := by
  obtain ⟨k, hk, hkp⟩ := Option.bind_eq_some_iff.mp hp
  have := lt_of_links? hk
  have := h.older j k p hk hkp
  omega

/-- The new block has no children yet. -/
theorem IsTree.count_new (h : s.IsTree brought) (hs : s.Sprouts t kind parent proc) (j : Nat) :
    (#[] : Array Nat).count j = if t.parentOf? j = some s.blocks.size then 1 else 0 := by
  rw [hs.parentOf?, if_neg]
  · exact Array.count_empty
  · split
    · exact fun hp => absurd (hs.below _ hp) (Nat.lt_irrefl _)
    · exact fun hp => absurd (h.lt_of_parentOf? hp).2 (Nat.lt_irrefl _)

/-- An old block has the children that it had, and the new block if it is the parent of that. -/
theorem IsTree.count_adopt (h : s.IsTree brought) (hs : s.Sprouts t kind parent proc) (hk : s.links? p = some k)
    (j : Nat) :
    (Links.adopt parent p s.blocks.size k).children.count j =
      if t.parentOf? j = some p then 1 else 0 := by
  have hcount := h.children p k j hk
  have hfresh : s.parentOf? s.blocks.size ≠ some p :=
    fun hp => absurd (h.lt_of_parentOf? hp).1 (Nat.lt_irrefl _)
  rw [hs.parentOf?]
  unfold Links.adopt
  by_cases hp : parent = some p
  · rw [if_pos hp, Array.count_push, hcount]
    by_cases hj : j = s.blocks.size
    · subst hj
      rw [if_pos rfl, if_neg hfresh, if_pos hp]
      simp
    · have hne : (s.blocks.size == j) = false := by
        simpa using fun heq : s.blocks.size = j => hj heq.symm
      rw [if_neg hj, hne]
      rfl
  · rw [if_neg hp, hcount]
    by_cases hj : j = s.blocks.size
    · subst hj
      rw [if_pos rfl, if_neg hfresh, if_neg hp]
    · rw [if_neg hj]

/-- A block can be put below another one, as the only block if there is none to put it below. It is the
body of its procedure if it is a function block, and belongs to the procedure of its parent if it is a
language block. -/
theorem IsTree.grow (h : s.IsTree brought) (hs : s.Sprouts t kind parent proc)
    (hroot : parent = none → s.blocks.size = 0) (hglobal : kind = .global → proc = none)
    (hbodies : ∀ r, t.bodyOf? r =
      if kind = .function ∧ proc = some r then some s.blocks.size else s.bodyOf? r)
    (hfunction : kind = .function → ∃ r, proc = some r ∧ s.bodyOf? r = none)
    (hlanguage : kind = .language →
      ∃ p k, parent = some p ∧ s.links? p = some k ∧ k.procedure = proc) :
    t.IsTree brought where
  ids i l hl := by
    obtain ⟨rfl, rfl⟩ | ⟨_, k, hk, rfl⟩ := hs.cases hl
    · rfl
    · rw [Links.adopt_id]
      exact h.ids i k hk
  older i l p hl hp := by
    obtain ⟨rfl, rfl⟩ | ⟨_, k, hk, rfl⟩ := hs.cases hl
    · exact hs.below p hp
    · rw [Links.adopt_parent] at hp
      exact h.older i k p hk hp
  roots i l hl hp := by
    obtain ⟨rfl, rfl⟩ | ⟨_, k, hk, rfl⟩ := hs.cases hl
    · exact hroot hp
    · rw [Links.adopt_parent] at hp
      exact h.roots i k hk hp
  children p l j hl := by
    obtain ⟨rfl, rfl⟩ | ⟨_, k, hk, rfl⟩ := hs.cases hl
    · exact h.count_new hs j
    · exact h.count_adopt hs hk j
  bodies r i hi := by
    rw [hbodies] at hi
    split at hi
    · next hr =>
      cases hi
      exact .inl ⟨_, hs.new, hr.1, hr.2⟩
    · refine (h.bodies r i hi).imp_left fun ⟨k, hk, hkind, hproc⟩ => ?_
      exact ⟨_, hs.old hk, (k.adopt_kind ..).trans hkind, (k.adopt_procedure ..).trans hproc⟩
  functions i l hl hkind := by
    obtain ⟨rfl, rfl⟩ | ⟨_, k, hk, rfl⟩ := hs.cases hl
    · obtain ⟨r, hr, _⟩ := hfunction hkind
      exact ⟨r, hr, by rw [hbodies, if_pos ⟨hkind, hr⟩]⟩
    · rw [Links.adopt_kind] at hkind
      obtain ⟨r, hr, hbody⟩ := h.functions i k hk hkind
      refine ⟨r, (k.adopt_procedure ..).trans hr, ?_⟩
      rw [hbodies, if_neg, hbody]
      -- The procedure of the new block had no body.
      rintro ⟨hfun, hproc⟩
      obtain ⟨r', hr', hnone⟩ := hfunction hfun
      rw [hproc] at hr'
      cases hr'
      rw [hnone] at hbody
      cases hbody
  languages i l hl hkind := by
    obtain ⟨rfl, rfl⟩ | ⟨_, k, hk, rfl⟩ := hs.cases hl
    · obtain ⟨p, k, hp, hk, hproc⟩ := hlanguage hkind
      exact ⟨p, _, hp, hs.old hk, (k.adopt_procedure ..).trans hproc⟩
    · rw [Links.adopt_kind] at hkind
      obtain ⟨p, k', hp, hk', hproc⟩ := h.languages i k hk hkind
      refine ⟨p, _, (k.adopt_parent ..).trans hp, hs.old hk', ?_⟩
      rw [Links.adopt_procedure, Links.adopt_procedure]
      exact hproc
  globals i l hl hkind := by
    obtain ⟨rfl, rfl⟩ | ⟨_, k, hk, rfl⟩ := hs.cases hl
    · exact hglobal hkind
    · rw [Links.adopt_kind] at hkind
      exact (k.adopt_procedure ..).trans (h.globals i k hk hkind)

end

/-! ## Walking to the root -/

/-- The walk along the blocks around a block ends at the first block. -/
theorem IsTree.enclosing? {s : Session} (h : s.IsTree brought) {i : Nat} (hi : i < s.blocks.size) :
    ∃ path, s.enclosing? i = some (path ++ [0]) := by
  have hfuel : ∀ fuel i, i < fuel → i < s.blocks.size →
      ∃ path, s.enclosingFrom fuel i = some (path ++ [0]) := by
    intro fuel
    induction fuel with
    | zero =>
      intro i hlt
      cases hlt
    | succ fuel ih =>
      intro i hlt hi
      have hb : s.block? i = some s.blocks[i] := Array.getElem?_eq_getElem hi
      have hlinks : s.links? i = some s.blocks[i].links := by rw [links?, hb, Option.map_some]
      unfold enclosingFrom
      rw [hb]
      dsimp only
      cases hp : s.blocks[i].parent with
      | none =>
        have := h.roots i _ hlinks hp
        subst this
        exact ⟨[], rfl⟩
      | some p =>
        have := h.older i _ p hlinks hp
        obtain ⟨path, hpath⟩ := ih p (by omega) (by omega)
        exact ⟨i :: path, by simp [hpath]⟩
  exact hfuel _ i hi hi

end Session

namespace Lowering

variable {K : OpCode → Prop} {f g : Frame} {s t : Session} {close : Session → Session → Prop}

/-! ## Lowering and the tree -/

theorem Change.links?_eq (h : Change K f s t) : t.links? = s.links? := by
  cases h with
  | emit i span =>
    unfold Session.emit
    split
    · rfl
    · refine (Session.links?_modifyBlock ?_ _ f.block).trans rfl
      exact fun _ => rfl
  | patch =>
    unfold Session.replaceCode
    split
    · rfl
    · refine Session.links?_modifyBlock ?_ _ f.block
      exact fun _ => rfl
  | declare d =>
    have hlocal (u : Session) (id : Nat) (x : Symbol) : (u.enterLocal id x).links? = u.links? := by
      refine Session.links?_modifyBlock ?_ u id
      exact fun _ => rfl
    obtain ⟨cls, counters, _, _, _, _, heq⟩ | ⟨counters, _, _, heq⟩ := s.declare_cases f d
    · rw [heq]
      unfold Session.enterMember
      split
      · exact (hlocal _ 0 _).trans rfl
      · rfl
    · rw [heq]
      exact (hlocal _ f.block _).trans rfl
  | commit node =>
    refine Session.links?_modifyBlock ?_ s node.block
    exact fun _ => rfl
  | _ => rfl

end Lowering

namespace Session

variable {brought : Nat → Prop} {f : Frame} {s : Session}

/-- A block that is added below the current one and given a procedure. -/
theorem links?_addBelow (hf : f.block < s.blocks.size) {u : Session} (hu : u.blocks = s.blocks)
    (kind : BlockKind) (dialect : Dialect) (proc : Option ProcRef) (i : Nat) :
    ((u.addBlock kind dialect (some f.block)).modifyBlock s.blocks.size fun b =>
        { b with procedure := proc }).links? i =
      if i = s.blocks.size then some ⟨s.blocks.size, kind, some f.block, #[], proc⟩
      else (s.links? i).map (Links.adopt (some f.block) i s.blocks.size) := by
  refine (links?_modifyBlock_eq (k := fun l => { l with procedure := proc }) (fun _ => rfl) _
    s.blocks.size i).trans ?_
  have hparent : ∀ p, some f.block = some p → p < u.blocks.size := by
    rintro p ⟨⟩
    rwa [hu]
  rw [links?_addBlock u kind dialect hparent, hu, links?_of_blocks hu]
  by_cases hi : i = s.blocks.size
  · rw [if_pos hi.symm, if_pos hi, if_pos hi, Option.map_some]
  · rw [if_neg fun heq => hi heq.symm, if_neg hi, if_neg hi]

/-- The block that a frame stands in. -/
theorem links?_of_placed (hf : f.Placed s) :
    ∃ l, s.links? f.block = some l ∧ l.procedure = f.scope.procedure := by
  obtain ⟨_, hheader, hproc⟩ := hf.block
  obtain ⟨b, hb, rfl⟩ := header?_eq_some.mp hheader
  exact ⟨b.links, links?_eq_some.mpr ⟨b, hb, rfl⟩, hproc⟩

/-- A language block is put below the current one. -/
theorem links?_openBlock (hf : f.Placed s) (dialect : Dialect) (i : Nat) :
    (s.openBlock f dialect).links? i =
      if i = s.blocks.size then some ⟨s.blocks.size, .language, some f.block, #[], f.scope.procedure⟩
      else (s.links? i).map (Links.adopt (some f.block) i s.blocks.size) := by
  obtain ⟨l, hl, _⟩ := links?_of_placed hf
  exact links?_addBelow (lt_of_links? hl) rfl .language dialect f.scope.procedure i

/-- The body of a procedure is put below the current block. -/
theorem links?_openProcedure (hf : f.Placed s) (p : Procedure) (message : String) (i : Nat) :
    (s.openProcedure f p message).links? i =
      if i = s.blocks.size then
        some ⟨s.blocks.size, .function, some f.block, #[], some (s.nextProcedure f.scope)⟩
      else (s.links? i).map (Links.adopt (some f.block) i s.blocks.size) := by
  obtain ⟨l, hl, _⟩ := links?_of_placed hf
  rw [← links?_addBelow (lt_of_links? hl) (blocks_register s f.scope p) .function f.dialect
    (some (s.nextProcedure f.scope)) i]
  exact congrFun (links?_of_blocks (blocks_openProcedure s f p message)) i

theorem IsTree.openBlock (h : s.IsTree brought) (hf : f.Placed s) (dialect : Dialect) :
    (s.openBlock f dialect).IsTree brought := by
  obtain ⟨l, hl, hproc⟩ := links?_of_placed hf
  have hlt := lt_of_links? hl
  have hparent : ∀ p, some f.block = some p → p < s.blocks.size := by
    rintro p ⟨⟩
    exact hlt
  refine h.grow ⟨hparent, links?_openBlock hf dialect⟩ nofun nofun
    (fun r => ?_) nofun fun _ => ⟨f.block, l, rfl, hl, hproc⟩
  rw [if_neg fun h => by cases h.1]
  exact congrFun (bodyOf?_congr rfl rfl) r

theorem IsTree.openProcedure (h : s.IsTree brought) (hf : f.Placed s)
    (hcls : ∀ cls, ownerClass f.scope = some cls → (s.classes.get? cls).isSome) (p : Procedure)
    (message : String) : (s.openProcedure f p message).IsTree brought := by
  obtain ⟨l, hl, _⟩ := links?_of_placed hf
  have hlt := lt_of_links? hl
  have hparent : ∀ p, some f.block = some p → p < s.blocks.size := by
    rintro p ⟨⟩
    exact hlt
  have hnone : s.bodyOf? (s.nextProcedure f.scope) = none := by
    rw [bodyOf?, procedure?_nextProcedure]
    rfl
  obtain ⟨hclasses, hprocedures⟩ := tables_openProcedure s f p message
  refine h.grow ⟨hparent, links?_openProcedure hf p message⟩ nofun nofun (fun r => ?_) (fun _ => ⟨_, rfl, hnone⟩) nofun
  rw [bodyOf?_congr hclasses hprocedures, bodyOf?, procedure?_modifyProcedure]
  by_cases hr : s.nextProcedure f.scope = r
  · subst hr
    obtain ⟨q, hq⟩ := Option.isSome_iff_exists.mp (procedure?_register_next hcls p)
    rw [if_pos rfl, if_pos ⟨rfl, rfl⟩, hq]
    rfl
  · rw [if_neg hr, if_neg fun heq => hr (Option.some.inj heq.2)]
    exact bodyOf?_register (fun heq => hr heq.symm) p

/-- A class brings the blocks that its procedures come with. -/
theorem IsTree.appendClass (h : s.IsTree brought) {c : Class} {classes : ClassTable}
    (hc : ∀ j p i, c.procedures.get? j = some p → p.block = some i → brought i)
    (happ : s.classes.append? c = some classes) : IsTree brought { s with classes } := by
  have hbody (r : ProcRef) : bodyOf? { s with classes } r =
      if r.classScope = some s.classes.size then (c.procedures.get? r.index).bind Procedure.block
      else s.bodyOf? r := by
    obtain ⟨owner, i⟩ := r
    unfold bodyOf?
    cases owner with
    | none => rfl
    | some cls =>
      rw [procedure?_some, procedure?_some]
      dsimp only
      rw [ClassTable.get?_append? happ]
      by_cases hcls : cls = s.classes.size
      · rw [if_pos hcls, if_pos (congrArg some hcls), Option.bind_some]
      · rw [if_neg hcls, if_neg fun heq => hcls (Option.some.inj heq)]
  refine h.bring rfl (fun r i hi => ?_) fun r i hi => ?_
  · rw [hbody, if_neg, hi]
    intro hcls
    obtain ⟨owner, j⟩ := r
    dsimp only at hcls
    subst hcls
    rw [bodyOf?, procedure?_some, ClassTable.get?_size] at hi
    cases hi
  · rw [hbody] at hi
    split at hi
    · obtain ⟨p, hp, hblock⟩ := Option.bind_eq_some_iff.mp hi
      exact .inr (hc _ p i hp hblock)
    · exact .inl hi

end Session

end Diglot
