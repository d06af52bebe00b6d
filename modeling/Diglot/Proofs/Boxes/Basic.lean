import Diglot.Proofs.Origins.Bounces
import Diglot.Proofs.Spare.Statement

/-! # Boxes on the heap

A variable on the heap lives in a box. The box is made by an instruction, which reads the size of the
variable from a register.

* `Session.Boxed`: each variable of a block has its box made once, right behind the move of its size, and
  no other boxes are made.
* `Session.Calm s t`: from `s` to `t` no box is made and no variable needs one. What is boxed stays so
  (`Boxed.calm`).
* `Boxed.box`: a variable and its box come together.

The mirror of a static member stands in a block as well, but members have no part in this.
-/

set_option autoImplicit false

namespace Diglot

/-! ## Variables and their boxes -/

/-- The variable is on the heap, and this is its box. A member has none of its own. -/
structure Symbol.HasBox (x : Symbol) (box : Nat) : Prop where
  isMember : x.isMember = false
  region : x.region = .heap
  heapIndex : x.heapIndex = some box

/-- The position in a table does not matter. -/
theorem Symbol.HasBox.moved {x : Symbol} {k box : Nat} (h : ({ x with position := k } : Symbol).HasBox box) :
    x.HasBox box := ⟨h.isMember, h.region, h.heapIndex⟩

namespace Instruction

/-- Makes a box. -/
def allocation (box : Nat) : Instruction := .unary .alloc (.pointer box)

/-- Moves the size of the next box into its register. -/
def sizing (size : Nat) : Instruction := .binary .mov (.register .dx) (.int (Operand.clamp size))

end Instruction

theorem OpCode.isAlloc_of_isJump {op : OpCode} (h : op.isJump = true) : op.isAlloc = false := by
  cases op <;> first | rfl | cases h

open Lowering Instruction

/-! ## Steps without boxes -/

/-- No box is made in the block, and no variable of it needs one, but for those that were there. -/
structure Block.Calm (b c : Block) : Prop where
  keeps : ∀ (pc : Nat) i, i.opcode.isJump = false → b.code[pc]? = some i → c.code[pc]? = some i
  makes : ∀ (pc : Nat) i, i.opcode.isAlloc = true → c.code[pc]? = some i → b.code[pc]? = some i
  old : ∀ k x, b.symbols.get? k = some x → c.symbols.get? k = some x
  needs : ∀ k x box, x.HasBox box → c.symbols.get? k = some x → b.symbols.get? k = some x

namespace Block.Calm

variable {b c : Block}

theorem ofCode (hsymbols : c.symbols = b.symbols)
    (hkeeps : ∀ (pc : Nat) i, i.opcode.isJump = false → b.code[pc]? = some i → c.code[pc]? = some i)
    (hmakes : ∀ (pc : Nat) i, i.opcode.isAlloc = true → c.code[pc]? = some i → b.code[pc]? = some i) :
    b.Calm c :=
  ⟨hkeeps, hmakes, fun _ _ h => hsymbols ▸ h, fun _ _ _ _ h => hsymbols ▸ h⟩

theorem same (hsymbols : c.symbols = b.symbols) (hcode : c.code = b.code) : b.Calm c :=
  ofCode hsymbols (fun _ _ _ h => hcode ▸ h) fun _ _ _ h => hcode ▸ h

theorem trans {d : Block} (h : b.Calm c) (h' : c.Calm d) : b.Calm d :=
  ⟨fun pc i hi hb => h'.keeps pc i hi (h.keeps pc i hi hb), fun pc i hi hd => h.makes pc i hi (h'.makes pc i hi hd),
    fun k x hx => h'.old k x (h.old k x hx), fun k x box hbox hx => h.needs k x box hbox (h'.needs k x box hbox hx)⟩

theorem push {i : Instruction} (hi : i.opcode.isAlloc = false) (hsymbols : c.symbols = b.symbols)
    (hcode : c.code = b.code.push i) : b.Calm c := by
  refine ofCode hsymbols (fun pc j _ hj => ?_) fun pc j halloc hj => ?_
  · have hlt : pc < b.code.size := (Array.getElem?_eq_some_iff.mp hj).1
    rw [hcode, Array.getElem?_push, if_neg (Nat.ne_of_lt hlt), hj]
  · rw [hcode, Array.getElem?_push] at hj
    split at hj
    · cases hj
      cases hi.symm.trans halloc
    · exact hj

/-- Patching turns a jump into a jump. -/
theorem ofPatches (hsymbols : c.symbols = b.symbols) (h : Patches b c) : b.Calm c := by
  obtain hcode | ⟨pending, target, i, j, hi, hpatch, hcode⟩ := h
  · exact same hsymbols hcode
  have hjump : i.opcode.isJump = true := isJump_of_patch hpatch
  have hj : j.opcode.isAlloc = false := OpCode.isAlloc_of_isJump ((Flow.patch_eq hpatch).1 ▸ hjump)
  refine ofCode hsymbols (fun pc k hk hold => ?_) fun pc k hk hnew => ?_
  · have hne : pending ≠ pc := by
      rintro rfl
      cases hi.symm.trans hold
      cases hjump.symm.trans hk
    rw [hcode, Array.getElem?_setIfInBounds, if_neg hne, hold]
  · rw [hcode, Array.getElem?_setIfInBounds] at hnew
    split at hnew
    · split at hnew
      · cases hnew
        cases hj.symm.trans hk
      · cases hnew
    · exact hnew

/-- A variable may be entered that has no box. -/
theorem enter {x : Symbol} (hx : ∀ box, ¬ x.HasBox box) (b : Block) :
    b.Calm { b with symbols := b.symbols.append x } := by
  refine ⟨fun _ _ _ h => h, fun _ _ _ h => h, ?_, fun k y box hbox hy => ?_⟩
  · exact fun k y hy => SymbolTable.get?_append_of_some hy x
  · rcases SymbolTable.get?_append_cases hy with hy | ⟨-, rfl⟩
    · exact hy
    · exact absurd hbox.moved (hx box)

end Block.Calm

namespace Session

theorem instruction?_eq (s : Session) (id pc : Nat) :
    s.instruction? id pc = (s.block? id).bind fun b => b.code[pc]? := by
  unfold instruction? text
  cases s.block? id <;> rfl

/-- From `s` to `t` no box is made, and no variable needs one. -/
structure Calm (s t : Session) : Prop where
  keeps : ∀ id b, s.block? id = some b → ∃ c, t.block? id = some c ∧ b.Calm c
  adds : ∀ id c, t.block? id = some c → s.block? id = none → Block.Calm { c with code := #[], symbols := {} } c
  watch : ∀ i ∈ t.watch, i ∈ s.watch ∨ i.opcode.isAlloc = false
  heap : s.counters.heap ≤ t.counters.heap

namespace Calm

variable {s t : Session}

theorem trans {u : Session} (h : s.Calm t) (h' : t.Calm u) : s.Calm u := by
  refine ⟨fun id b hb => ?_, fun id d hd hnone => ?_, fun i hi => ?_, Nat.le_trans h.heap h'.heap⟩
  · obtain ⟨c, hc, hbc⟩ := h.keeps id b hb
    obtain ⟨d, hd, hcd⟩ := h'.keeps id c hc
    exact ⟨d, hd, hbc.trans hcd⟩
  · cases hc : t.block? id with
    | none => exact h'.adds id d hd hc
    | some c =>
      obtain ⟨d', hd', hcd⟩ := h'.keeps id c hc
      cases hd.symm.trans hd'
      have hnew := (h.adds id c hc hnone).trans hcd
      exact ⟨hnew.keeps, hnew.makes, hnew.old, hnew.needs⟩
  · rcases h'.watch i hi with hi | hi
    · exact h.watch i hi
    · exact .inr hi

theorem ofBlocks (hblocks : t.blocks = s.blocks) (hwatch : t.watch = s.watch)
    (hheap : s.counters.heap ≤ t.counters.heap) : s.Calm t := by
  have hblock (id : Nat) : t.block? id = s.block? id := by rw [block?, hblocks, block?]
  refine ⟨fun id b hb => ⟨b, (hblock id).trans hb, .same rfl rfl⟩, fun id c hc hnone => ?_,
    fun i hi => .inl (hwatch ▸ hi), hheap⟩
  rw [hblock, hnone] at hc
  cases hc

theorem modifyBlock {id : Nat} {k : Block → Block} (hk : ∀ b, s.block? id = some b → b.Calm (k b)) :
    s.Calm (s.modifyBlock id k) := by
  refine ⟨fun other b hb => ?_, fun other c hc hnone => ?_, fun i hi => .inl hi, Nat.le_refl _⟩
  · rw [block?_modifyBlock, hb]
    split
    · next heq =>
      subst heq
      exact ⟨k b, rfl, hk b hb⟩
    · exact ⟨b, rfl, .same rfl rfl⟩
  · rw [block?_modifyBlock, hnone] at hc
    split at hc <;> cases hc

theorem pushBlock (s : Session) (kind : BlockKind) (dialect : Dialect) (parent : Option Nat) :
    s.Calm { s with blocks := s.blocks.push { id := s.blocks.size, kind, dialect, parent } } := by
  refine ⟨fun id b hb => ⟨b, ?_, .same rfl rfl⟩, fun id c hc hnone => ?_, fun i hi => .inl hi, Nat.le_refl _⟩
  · have hlt : id < s.blocks.size := (Array.getElem?_eq_some_iff.mp hb).1
    rw [block?, Array.getElem?_push, if_neg (Nat.ne_of_lt hlt)]
    exact hb
  · rw [block?, Array.getElem?_push] at hc
    split at hc
    · cases hc
      exact .same rfl rfl
    · cases hnone.symm.trans hc

theorem addBlock (s : Session) (kind : BlockKind) (dialect : Dialect) (parent : Option Nat) :
    s.Calm (s.addBlock kind dialect parent) := by
  have hpush := pushBlock s kind dialect parent
  cases parent with
  | none => exact hpush
  | some p =>
    refine hpush.trans (modifyBlock fun b _ => ?_)
    exact .same rfl rfl

theorem emit {i : Instruction} (hi : i.opcode.isAlloc = false) (s : Session) (block : Nat) (span : Span) :
    s.Calm (s.emit block i span) := by
  unfold Session.emit
  split
  · refine ⟨fun id b hb => ⟨b, hb, .same rfl rfl⟩, fun id c hc hnone => ?_, fun j hj => ?_, Nat.le_refl _⟩
    · cases hnone.symm.trans hc
    · rcases Array.mem_push.mp hj with hold | rfl
      · exact .inl hold
      · exact .inr hi
  · have hmap (debugMap : DebugMap) : s.Calm { s with debugMap } := ofBlocks rfl rfl (Nat.le_refl _)
    refine (hmap _).trans (modifyBlock fun b _ => ?_)
    exact .push hi rfl rfl

end Calm

/-! ## Variables that are boxed -/

/-- The box is made at this place, behind the move of the size. -/
structure BoxedAt (s : Session) (size box id pc : Nat) : Prop where
  sizing : s.instruction? id pc = some (sizing size)
  allocation : s.instruction? id (pc + 1) = some (allocation box)

/-- A variable of a block that has the box. -/
def Owns (s : Session) (box : Nat) : Prop :=
  ∃ id b k x, s.block? id = some b ∧ b.symbols.get? k = some x ∧ x.HasBox box

/-- Every variable of a block has its box made once, and no other box is made. -/
structure Boxed (s : Session) : Prop where
  made : ∀ id b k x box, s.block? id = some b → b.symbols.get? k = some x → x.HasBox box →
    ∃ j pc, s.BoxedAt x.size box j pc
  owned : ∀ id pc i, s.instruction? id pc = some i → i.opcode.isAlloc = true →
    ∃ box, i = allocation box ∧ box < s.counters.heap ∧ s.Owns box
  once : ∀ box id pc id' pc', s.instruction? id pc = some (allocation box) →
    s.instruction? id' pc' = some (allocation box) → id = id' ∧ pc = pc'
  watch : ∀ i ∈ s.watch, i.opcode.isAlloc = false

variable {s t : Session}

namespace Calm

variable (h : s.Calm t)
include h

theorem keeps_instruction {id pc : Nat} {i : Instruction} (hi : i.opcode.isJump = false)
    (hs : s.instruction? id pc = some i) : t.instruction? id pc = some i := by
  rw [instruction?_eq] at hs ⊢
  obtain ⟨b, hb, hpc⟩ := Option.bind_eq_some_iff.mp hs
  obtain ⟨c, hc, hbc⟩ := h.keeps id b hb
  rw [hc]
  exact hbc.keeps pc i hi hpc

theorem makes_no_box {id pc : Nat} {i : Instruction} (hi : i.opcode.isAlloc = true)
    (ht : t.instruction? id pc = some i) : s.instruction? id pc = some i := by
  rw [instruction?_eq] at ht ⊢
  obtain ⟨c, hc, hpc⟩ := Option.bind_eq_some_iff.mp ht
  cases hb : s.block? id with
  | none => cases (h.adds id c hc hb).makes pc i hi hpc
  | some b =>
    obtain ⟨c', hc', hbc⟩ := h.keeps id b hb
    cases hc.symm.trans hc'
    exact hbc.makes pc i hi hpc

theorem needs_no_box {id k box : Nat} {c : Block} {x : Symbol} (hc : t.block? id = some c)
    (hx : c.symbols.get? k = some x) (hbox : x.HasBox box) :
    ∃ b, s.block? id = some b ∧ b.symbols.get? k = some x := by
  cases hb : s.block? id with
  | none => cases (h.adds id c hc hb).needs k x box hbox hx
  | some b =>
    obtain ⟨c', hc', hbc⟩ := h.keeps id b hb
    cases hc.symm.trans hc'
    exact ⟨b, rfl, hbc.needs k x box hbox hx⟩

theorem owns {box : Nat} (hs : s.Owns box) : t.Owns box := by
  obtain ⟨id, b, k, x, hb, hx, hbox⟩ := hs
  obtain ⟨c, hc, hbc⟩ := h.keeps id b hb
  exact ⟨id, c, k, x, hc, hbc.old k x hx, hbox⟩

theorem boxedAt {size box id pc : Nat} (hs : s.BoxedAt size box id pc) : t.BoxedAt size box id pc :=
  ⟨h.keeps_instruction rfl hs.sizing, h.keeps_instruction rfl hs.allocation⟩

end Calm

/-- Where no box is made and none is needed, all boxes are as before. -/
theorem Boxed.calm (hs : s.Boxed) (h : s.Calm t) : t.Boxed := by
  refine ⟨fun id c k x box hc hx hbox => ?_, fun id pc i hi halloc => ?_, fun box id pc id' pc' hi hi' => ?_,
    fun i hi => ?_⟩
  · obtain ⟨b, hb, hx⟩ := h.needs_no_box hc hx hbox
    obtain ⟨j, pc, hat⟩ := hs.made id b k x box hb hx hbox
    exact ⟨j, pc, h.boxedAt hat⟩
  · obtain ⟨box, hbox, hlt, howns⟩ := hs.owned id pc i (h.makes_no_box halloc hi) halloc
    exact ⟨box, hbox, Nat.lt_of_lt_of_le hlt h.heap, h.owns howns⟩
  · exact hs.once box id pc id' pc' (h.makes_no_box rfl hi) (h.makes_no_box rfl hi')
  · rcases h.watch i hi with hi | hi
    · exact hs.watch i hi
    · exact hi

/-- A variable and its box are new in the block: the next box, made at the end of the code. -/
structure Boxes (s t : Session) (id : Nat) (b : Block) (x : Symbol) : Prop where
  block : s.block? id = some b
  own : ∃ c, t.block? id = some c ∧ c.symbols = b.symbols.append x ∧
    c.code = (b.code.push (sizing x.size)).push (allocation s.counters.heap)
  others : ∀ j, j ≠ id → t.block? j = s.block? j
  watch : t.watch = s.watch
  heap : t.counters.heap = s.counters.heap + 1
  hasBox : x.HasBox s.counters.heap

namespace Boxes

variable {id : Nat} {b : Block} {x : Symbol} (h : s.Boxes t id b x)
include h

theorem instruction?_cases {j pc : Nat} {i : Instruction} (hi : t.instruction? j pc = some i) :
    s.instruction? j pc = some i ∨ j = id ∧
      (pc = b.code.size ∧ i = sizing x.size ∨ pc = b.code.size + 1 ∧ i = allocation s.counters.heap) := by
  rw [instruction?_eq] at hi ⊢
  by_cases hj : j = id
  case neg => exact .inl (by rwa [h.others j hj] at hi)
  subst hj
  obtain ⟨c, hc, -, hcode⟩ := h.own
  rw [hc, Option.bind_some, hcode, Array.getElem?_push, Array.getElem?_push] at hi
  rw [h.block, Option.bind_some]
  split at hi
  · next hpc => exact .inr ⟨rfl, .inr ⟨hpc.trans (Array.size_push ..), (Option.some.inj hi).symm⟩⟩
  · split at hi
    · next hpc => exact .inr ⟨rfl, .inl ⟨hpc, (Option.some.inj hi).symm⟩⟩
    · exact .inl hi

theorem boxedAt : t.BoxedAt x.size s.counters.heap id b.code.size := by
  obtain ⟨c, hc, -, hcode⟩ := h.own
  constructor
  · rw [instruction?_eq, hc, Option.bind_some, hcode, Array.getElem?_push, Array.size_push,
      if_neg (Nat.ne_of_lt (Nat.lt_succ_self _)), Array.getElem?_push, if_pos rfl]
  · rw [instruction?_eq, hc, Option.bind_some, hcode, Array.getElem?_push, Array.size_push, if_pos rfl]

theorem keeps_instruction {j pc : Nat} {i : Instruction} (hi : s.instruction? j pc = some i) :
    t.instruction? j pc = some i := by
  rw [instruction?_eq] at hi ⊢
  by_cases hj : j = id
  case neg => rwa [h.others j hj]
  subst hj
  obtain ⟨c, hc, -, hcode⟩ := h.own
  rw [h.block, Option.bind_some] at hi
  have hlt : pc < b.code.size := (Array.getElem?_eq_some_iff.mp hi).1
  rw [hc, Option.bind_some, hcode, Array.getElem?_push, Array.size_push, if_neg (by omega),
    Array.getElem?_push, if_neg (Nat.ne_of_lt hlt), hi]

theorem owns {box : Nat} (hs : s.Owns box) : t.Owns box := by
  obtain ⟨j, b', k, y, hb', hy, hbox⟩ := hs
  by_cases hj : j = id
  case neg => exact ⟨j, b', k, y, (h.others j hj).trans hb', hy, hbox⟩
  subst hj
  cases h.block.symm.trans hb'
  obtain ⟨c, hc, hsymbols, -⟩ := h.own
  exact ⟨j, c, k, y, hc, hsymbols ▸ SymbolTable.get?_append_of_some hy x, hbox⟩

theorem owns_new : t.Owns s.counters.heap := by
  obtain ⟨c, hc, hsymbols, -⟩ := h.own
  refine ⟨id, c, b.symbols.size, { x with position := b.symbols.size }, hc, ?_, ?_⟩
  · rw [hsymbols]
    exact SymbolTable.get?_append_size _ _
  · exact ⟨h.hasBox.isMember, h.hasBox.region, h.hasBox.heapIndex⟩

end Boxes

/-- A variable that comes together with its box is boxed as the others are. -/
theorem Boxed.box {id : Nat} {b : Block} {x : Symbol} (hs : s.Boxed) (h : s.Boxes t id b x) : t.Boxed := by
  -- The new box is none of those that were made before.
  have hnew (j pc : Nat) : s.instruction? j pc ≠ some (allocation s.counters.heap) := by
    intro hi
    obtain ⟨box, hbox, hlt, -⟩ := hs.owned j pc _ hi rfl
    cases hbox
    exact Nat.lt_irrefl _ hlt
  refine ⟨fun j c k y box hc hy hbox => ?_, fun j pc i hi halloc => ?_, fun box j pc j' pc' hi hi' => ?_, ?_⟩
  · have hold (b' : Block) (hb' : s.block? j = some b') (hy : b'.symbols.get? k = some y) :
        ∃ j pc, t.BoxedAt y.size box j pc := by
      obtain ⟨j', pc, hat⟩ := hs.made j b' k y box hb' hy hbox
      exact ⟨j', pc, h.keeps_instruction hat.sizing, h.keeps_instruction hat.allocation⟩
    by_cases hj : j = id
    case neg => exact hold c ((h.others j hj).symm.trans hc) hy
    subst hj
    obtain ⟨c', hc', hsymbols, -⟩ := h.own
    cases hc.symm.trans hc'
    rw [hsymbols] at hy
    rcases SymbolTable.get?_append_cases hy with hy | ⟨-, rfl⟩
    · exact hold b h.block hy
    · have hsame : box = s.counters.heap := Option.some.inj (hbox.heapIndex.symm.trans h.hasBox.heapIndex)
      rw [hsame]
      exact ⟨j, b.code.size, h.boxedAt⟩
  · rcases h.instruction?_cases hi with hi | ⟨rfl, ⟨-, rfl⟩ | ⟨-, rfl⟩⟩
    · obtain ⟨box, hbox, hlt, howns⟩ := hs.owned j pc i hi halloc
      refine ⟨box, hbox, ?_, h.owns howns⟩
      rw [h.heap]
      exact Nat.lt_succ_of_lt hlt
    · cases halloc
    · refine ⟨s.counters.heap, rfl, ?_, h.owns_new⟩
      rw [h.heap]
      exact Nat.lt_succ_self _
  · rcases h.instruction?_cases hi with hi | ⟨rfl, ⟨-, hno⟩ | ⟨rfl, hbox⟩⟩
    · rcases h.instruction?_cases hi' with hi' | ⟨rfl, ⟨-, hno⟩ | ⟨-, hbox⟩⟩
      · exact hs.once box j pc j' pc' hi hi'
      · cases hno
      · cases hbox
        exact absurd hi (hnew j pc)
    · cases hno
    · cases hbox
      rcases h.instruction?_cases hi' with hi' | ⟨rfl, ⟨-, hno⟩ | ⟨rfl, -⟩⟩
      · exact absurd hi' (hnew j' pc')
      · cases hno
      · exact ⟨rfl, rfl⟩
  · rw [h.watch]
    exact hs.watch

end Session

end Diglot
