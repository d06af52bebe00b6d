import Diglot.Proofs.Chains.Recorded
import Diglot.Proofs.Closed.Session

/-! # Sessions that differ in guide counts

An instruction that counts guides is emitted only if the options ask for guides. `s.Fewer t` says that `t` has what
`s` has, but for these instructions, what only a debugger needs, and the ranges of dependency nodes; imperative
code is the same.

`Lockstep x f R m n`: from states of which the second has what the first one has but for the counts of guides, `m` in
frame `f` and `n` in the same frame without guides both finish, with values that `R` relates, or both stop for the
same reason; and again the second state has what the first one has.

* `Ground` is what is known of the session: whether it asks for guides, whether it is watching, how many units it has,
  and the dialects of some blocks. `x.Bears f` says that `f` agrees with it.
* `x.Same f a b`: if the code is that of an imperative block, `a` and `b` are the same. Places in the code are.
-/

set_option autoImplicit false

namespace Diglot

open Lowering

/-! ## What is left out -/

/-- The instruction tells how many guides a value carries. -/
def Instruction.isGuideCount (i : Instruction) : Bool :=
  match i.opcode, i.op1 with
  | .pushindex, some (.guideCount _) => true
  | _, _ => false

/-- The code without what counts guides, and without what only a debugger needs. -/
def uncounted (code : Array Instruction) : Array Instruction :=
  (code.filter fun i => !i.isGuideCount).map Instruction.erase

theorem uncounted_empty : uncounted #[] = #[] := by simp [uncounted]

theorem uncounted_push (code : Array Instruction) (i : Instruction) :
    uncounted (code.push i) = if i.isGuideCount then uncounted code else (uncounted code).push i.erase := by
  unfold uncounted
  rw [Array.filter_push]
  cases i.isGuideCount <;> simp

/-- Code that is left when its counts are left out has none. -/
theorem all_of_uncounted {code code' : Array Instruction} (h : code'.map Instruction.erase = uncounted code) :
    ∀ i ∈ code', i.isGuideCount = false := by
  intro i hi
  have herased : i.erase ∈ uncounted code := h ▸ Array.mem_map_of_mem hi
  obtain ⟨j, hj, hij⟩ := Array.mem_map.mp herased
  have hcount : j.isGuideCount = false := by simpa using (Array.mem_filter.mp hj).2
  change i.erase.isGuideCount = false
  rw [← hij]
  exact hcount

/-- The node without its range in the code. -/
def GraphNode.placeless (n : GraphNode) : GraphNode := { n with startPc := 0, endPc := 0 }

/-- The block without its code and the ranges of its nodes. -/
def Block.outline (b : Block) : Block :=
  { b with code := #[], graph := b.graph.map GraphNode.placeless, entry := none }

/-- The block begins at its first instruction, once it has one. -/
def Block.Begins (b : Block) : Prop := b.entry = if b.code.isEmpty then none else some 0

/-- The block with an instruction behind its code. -/
def Block.put (i : Instruction) (b : Block) : Block :=
  { b with code := b.code.push i, entry := some (b.entry.getD b.code.size) }

theorem Block.Begins.put {b : Block} (h : b.Begins) (i : Instruction) : (b.put i).Begins := by
  unfold Begins at h
  unfold Begins Block.put
  rw [h]
  by_cases hempty : b.code.isEmpty <;> simp_all

/-- The second block has what the first one has, but for the counts of guides. -/
structure Block.Fewer (b c : Block) : Prop where
  outline : c.outline = b.outline
  code : c.code.map Instruction.erase = uncounted b.code
  same : b.dialect = .imperative → c.code = b.code
  begins : b.Begins ∧ c.Begins

namespace Block.Fewer

variable {b c : Block} (h : b.Fewer c)
include h

theorem dialect : c.dialect = b.dialect := (congrArg Block.dialect h.outline :)

theorem symbols : c.symbols = b.symbols := (congrArg Block.symbols h.outline :)

theorem kind : c.kind = b.kind := (congrArg Block.kind h.outline :)

theorem procedure : c.procedure = b.procedure := (congrArg Block.procedure h.outline :)

/-- Something beside the code is changed, and the nodes are only changed beside their ranges. -/
theorem aside {g k : Block → Block} (houtline : (k c).outline = (g b).outline)
    (hg : (g b).code = b.code ∧ (g b).entry = b.entry ∧ (g b).dialect = b.dialect)
    (hk : (k c).code = c.code ∧ (k c).entry = c.entry) : (g b).Fewer (k c) := by
  refine ⟨houtline, ?_, ?_, ?_⟩
  · rw [hg.1, hk.1]
    exact h.code
  · rw [hg.1, hk.1, hg.2.2]
    exact h.same
  · unfold Begins
    rw [hg.1, hg.2.1, hk.1, hk.2]
    exact h.begins

/-- The same is changed in both blocks. -/
theorem alter {g : Block → Block} (houtline : ∀ d, (g d).outline = g d.outline)
    (hcode : ∀ d, (g d).code = d.code ∧ (g d).entry = d.entry ∧ (g d).dialect = d.dialect) : (g b).Fewer (g c) := by
  refine h.aside ?_ (hcode b) ⟨(hcode c).1, (hcode c).2.1⟩
  rw [houtline c, houtline b, h.outline]

end Block.Fewer

namespace Session

/-- The session without its code, the option for guides, and what only a debugger needs. -/
def outline (s : Session) : Session :=
  { s with
    options := { s.options with replicationGuides := false }
    blocks := #[]
    debugMap := {}
    watch := #[]
    log := #[] }

theorem emit_watching {s : Session} (hw : s.isWatching = true) (block : Nat) (i : Instruction) (span : Span) :
    s.emit block i span = { s with watch := s.watch.push i } := if_pos hw

theorem emit_compiling {s : Session} (hw : s.isWatching = false) (block : Nat) (i : Instruction) (span : Span) :
    ∃ debugMap, s.emit block i span = ({ s with debugMap } : Session).modifyBlock block (.put i) :=
  ⟨s.debugMap.record block (((s.block? block).map fun b : Block => b.code.size).getD 0) span,
    if_neg (Bool.eq_false_iff.mp hw)⟩

/-- The change is made beside the code and the options. -/
structure Annotates (g : Session → Session) (u : Session) : Prop where
  outline : (g u).outline = g u.outline
  blocks : (g u).blocks = u.blocks
  watch : (g u).watch = u.watch
  options : (g u).options = u.options

/-- The second session has what the first one has, but for the counts of guides, and asks for none. -/
structure Fewer (s t : Session) : Prop where
  outline : t.outline = s.outline
  off : t.options.replicationGuides = false
  size : t.blocks.size = s.blocks.size
  blocks : ∀ id b c, s.block? id = some b → t.block? id = some c → b.Fewer c
  watch : t.watch.map Instruction.erase = uncounted s.watch

namespace Fewer

variable {s t : Session}

section
variable (h : s.Fewer t)
include h

theorem options : t.options = { s.options with replicationGuides := false } := by
  have ho := (congrArg (fun u : Session => u.options) h.outline :)
  change { t.options with replicationGuides := false } = _ at ho
  rw [← h.off] at ho
  exact ho

theorem classes : t.classes = s.classes := (congrArg (fun u : Session => u.classes) h.outline :)

theorem procedures : t.procedures = s.procedures := (congrArg (fun u : Session => u.procedures) h.outline :)

theorem counters : t.counters = s.counters := (congrArg (fun u : Session => u.counters) h.outline :)

theorem isWatching : t.isWatching = s.isWatching := (congrArg (fun u : Session => u.isWatching) h.outline :)

theorem nextUid : t.nextUid = s.nextUid := (congrArg (fun u : Session => u.nextUid) h.outline :)

theorem lateVariables : t.lateVariables = s.lateVariables :=
  (congrArg (fun u : Session => u.lateVariables) h.outline :)

theorem lateFunctions : t.lateFunctions = s.lateFunctions :=
  (congrArg (fun u : Session => u.lateFunctions) h.outline :)

theorem diagnostics : t.diagnostics = s.diagnostics := (congrArg (fun u : Session => u.diagnostics) h.outline :)

theorem diagnostic (issue : Issue) (message : String) (span : Span) :
    t.diagnostic issue message span = s.diagnostic issue message span := by
  have hfile : t.file = s.file := (congrArg (fun u : Session => u.file) h.outline :)
  unfold Session.diagnostic
  rw [hfile]

/-- The same blocks are there. -/
theorem block?_cases (id : Nat) :
    (s.block? id = none ∧ t.block? id = none) ∨
      ∃ b c, s.block? id = some b ∧ t.block? id = some c ∧ b.Fewer c := by
  by_cases hid : id < s.blocks.size
  · have hid' : id < t.blocks.size := h.size ▸ hid
    have hb : s.block? id = some s.blocks[id] := Array.getElem?_eq_getElem hid
    have hc : t.block? id = some t.blocks[id] := Array.getElem?_eq_getElem hid'
    exact .inr ⟨_, _, hb, hc, h.blocks id _ _ hb hc⟩
  · have hid' : ¬ id < t.blocks.size := h.size ▸ hid
    exact .inl ⟨Array.getElem?_eq_none (Nat.le_of_not_lt hid), Array.getElem?_eq_none (Nat.le_of_not_lt hid')⟩

theorem sameNames : s.SameNames t := by
  refine ⟨h.classes, h.procedures, h.isWatching,
    (congrArg (fun u : Session => u.isParsingModule) h.outline :), h.size, ?_⟩
  funext id
  unfold header?
  obtain ⟨hb, hc⟩ | ⟨b, c, hb, hc, hbc⟩ := h.block?_cases id
  · rw [hb, hc]
  · rw [hb, hc]
    exact (congrArg (fun d : Block => some d.header) hbc.outline :)

theorem canEmit (block : Nat) : t.CanEmit block ↔ s.CanEmit block := by
  unfold CanEmit
  rw [h.isWatching, h.sameNames.block?_isSome]

/-! ## What is done to both -/

/-- The log is written beside the rest. -/
theorem withLog (log log' : Array LogRecord) : ({ s with log } : Session).Fewer { t with log := log' } :=
  ⟨h.outline, h.off, h.size, h.blocks, h.watch⟩

theorem withDebugMap (map map' : DebugMap) :
    ({ s with debugMap := map } : Session).Fewer { t with debugMap := map' } :=
  ⟨h.outline, h.off, h.size, h.blocks, h.watch⟩

theorem noteEmission (f g : Frame) (p q : Nat) (i j : Instruction) :
    (s.noteEmission f p i).Fewer (t.noteEmission g q j) := by
  unfold Session.noteEmission Session.note
  split <;> split
  · exact h.withLog _ _
  · exact h.withLog _ _
  · exact h.withLog _ _
  · exact h

theorem noted (f : Frame) (p : Nat) (i : Instruction) : (s.noteEmission f p i).Fewer t := by
  unfold Session.noteEmission Session.note
  split
  · exact h.withLog _ t.log
  · exact h

theorem annotate {g : Session → Session} (hg : ∀ u, Annotates g u) : (g s).Fewer (g t) := by
  refine ⟨?_, ?_, ?_, fun id b c hb hc => ?_, ?_⟩
  · rw [(hg t).outline, (hg s).outline, h.outline]
  · rw [(hg t).options]
    exact h.off
  · rw [(hg s).blocks, (hg t).blocks]
    exact h.size
  · unfold block? at hb hc
    rw [(hg _).blocks] at hb hc
    exact h.blocks id b c hb hc
  · rw [(hg s).watch, (hg t).watch]
    exact h.watch

theorem modifyBlock {g k : Block → Block} (id : Nat)
    (hgk : ∀ b c, s.block? id = some b → b.Fewer c → (g b).Fewer (k c)) :
    (s.modifyBlock id g).Fewer (t.modifyBlock id k) := by
  refine ⟨h.outline, h.off, ?_, fun other b c hb hc => ?_, h.watch⟩
  · rw [size_blocks_modifyBlock, size_blocks_modifyBlock]
    exact h.size
  · rw [block?_modifyBlock] at hb hc
    split at hb
    · next heq =>
      subst heq
      rw [if_pos rfl] at hc
      obtain ⟨b', hb', rfl⟩ := Option.map_eq_some_iff.mp hb
      obtain ⟨c', hc', rfl⟩ := Option.map_eq_some_iff.mp hc
      exact hgk b' c' hb' (h.blocks id b' c' hb' hc')
    · next hne =>
      rw [if_neg hne] at hc
      exact h.blocks other b c hb hc

theorem addBlock (kind : BlockKind) (dialect : Dialect) (parent : Option Nat) :
    (s.addBlock kind dialect parent).Fewer (t.addBlock kind dialect parent) := by
  let child : Block := { id := s.blocks.size, kind, dialect, parent }
  have hpush : ({ s with blocks := s.blocks.push child } : Session).Fewer { t with blocks := t.blocks.push child } := by
    refine ⟨h.outline, h.off, ?_, fun id b c hb hc => ?_, h.watch⟩
    · simp only [Array.size_push, h.size]
    · unfold block? at hb hc
      simp only [Array.getElem?_push, h.size] at hb hc
      split at hb
      · next heq =>
        rw [if_pos heq] at hc
        obtain rfl := Option.some.inj hb
        obtain rfl := Option.some.inj hc
        exact ⟨rfl, rfl, fun _ => rfl, rfl, rfl⟩
      · next hne =>
        rw [if_neg hne] at hc
        exact h.blocks id b c hb hc
  unfold Session.addBlock
  dsimp only
  rw [h.size]
  cases parent with
  | none => exact hpush
  | some p =>
    refine hpush.modifyBlock p fun b c _ hbc => ?_
    exact hbc.alter (g := fun b => { b with children := b.children.push s.blocks.size }) (fun _ => rfl)
      fun _ => ⟨rfl, rfl, rfl⟩

/-! ## Emitting -/

/-- An instruction that counts no guides goes behind both codes, and in an imperative block it is the same. -/
theorem emit {block : Nat} {i j : Instruction} (span : Span) (hij : j.erase = i.erase) (hi : i.isGuideCount = false)
    (hsame : s.isWatching = false → ∀ b, s.block? block = some b → b.dialect = .imperative → j = i) :
    (s.emit block i span).Fewer (t.emit block j span) := by
  have hcode {code code' : Array Instruction} (hcodes : code'.map Instruction.erase = uncounted code) :
      (code'.push j).map Instruction.erase = uncounted (code.push i) := by
    rw [uncounted_push, hi, Array.map_push, hcodes, hij]
    rfl
  cases hw : s.isWatching with
  | true =>
    rw [emit_watching hw, emit_watching (h.isWatching.trans hw)]
    exact ⟨h.outline, h.off, h.size, h.blocks, hcode h.watch⟩
  | false =>
    obtain ⟨map, hs⟩ := emit_compiling hw block i span
    obtain ⟨map', ht⟩ := emit_compiling (h.isWatching.trans hw) block j span
    rw [hs, ht]
    refine (h.withDebugMap map map').modifyBlock block fun b c hb hbc => ?_
    refine ⟨hbc.outline, hcode hbc.code, fun hd => ?_, hbc.begins.1.put i, hbc.begins.2.put j⟩
    have hc : c.code = b.code := hbc.same hd
    change c.code.push j = b.code.push i
    rw [hc, hsame hw b hb hd]

/-- What counts guides goes behind the first code alone, if that is not imperative. -/
theorem emitCount {block : Nat} {i : Instruction} (span : Span) (hi : i.isGuideCount = true)
    (hassociative : s.isWatching = false → ∀ b, s.block? block = some b → b.dialect = .associative) :
    (s.emit block i span).Fewer t := by
  have hcode (code : Array Instruction) : uncounted (code.push i) = uncounted code := by
    rw [uncounted_push, if_pos hi]
  cases hw : s.isWatching with
  | true =>
    rw [emit_watching hw]
    exact ⟨h.outline, h.off, h.size, h.blocks, h.watch.trans (hcode _).symm⟩
  | false =>
    obtain ⟨map, hs⟩ := emit_compiling hw block i span
    have hsame : t.modifyBlock block id = t := by
      have hblocks : t.blocks.modify block id = t.blocks := by
        refine Array.ext_getElem? fun j => ?_
        rw [Array.getElem?_modify]
        split <;> simp
      unfold Session.modifyBlock
      rw [hblocks]
    rw [hs, ← hsame]
    refine (h.withDebugMap map t.debugMap).modifyBlock block fun b c hb hbc => ?_
    refine ⟨hbc.outline, hbc.code.trans (hcode _).symm, fun hd => ?_, hbc.begins.1.put i, hbc.begins.2⟩
    cases hd.symm.trans (hassociative hw b hb)

end

end Fewer

end Session

/-! ## Runs in lockstep -/

namespace Lowering

/-- The second state has what the first one has, but for the counts of guides. -/
structure State.Fewer (s t : State) : Prop where
  session : s.session.Fewer t.session
  node : t.node.placeless = s.node.placeless
  held : t.held.map GraphNode.placeless = s.held.map GraphNode.placeless
  pointers : t.pointers = s.pointers
  lastCallee : t.lastCallee = s.lastCallee

theorem State.Fewer.withSession {s t : State} (h : s.Fewer t) {a b : Session} (hab : a.Fewer b) :
    ({ s with session := a } : State).Fewer { t with session := b } :=
  ⟨hab, h.node, h.held, h.pointers, h.lastCallee⟩

/-- The frame of code whose values carry no guides. -/
abbrev Frame.unguided (f : Frame) : Frame := { f with isGuided := false }

/-- What is known of a session. -/
structure Ground where
  /-- The options ask for guides. -/
  asks : Bool
  isWatching : Bool
  units : Nat
  dialect? : Nat → Option Dialect

namespace Ground

variable {x : Ground} {f : Frame} {s t : Session}

/-- The session is as it is known to be. -/
structure Holds (x : Ground) (s : Session) : Prop where
  guides : s.options.replicationGuides = x.asks
  isWatching : s.isWatching = x.isWatching
  units : s.counters.units = x.units
  dialects : ∀ id d, x.dialect? id = some d → (s.block? id).map Block.dialect = some d

/-- Code of the frame is lowered into a block of its dialect, and guides are for associative code only. -/
structure Bears (x : Ground) (f : Frame) : Prop where
  dialect : x.isWatching = false → x.dialect? f.block = some f.dialect
  guided : f.isGuided = true → f.dialect = .associative

theorem Bears.unguided (h : x.Bears f) : x.Bears f.unguided := ⟨h.dialect, nofun⟩

/-- In code of an imperative block, `a` and `b` are the same. -/
def Same {α : Type} (x : Ground) (f : Frame) (a b : α) : Prop :=
  x.isWatching = false → f.dialect = .imperative → b = a

theorem Holds.congr (h : x.Holds s) (hoptions : t.options = s.options) (hwatching : t.isWatching = s.isWatching)
    (hunits : t.counters.units = s.counters.units)
    (hdialects : ∀ id, (s.block? id).isSome → (t.block? id).map Block.dialect = (s.block? id).map Block.dialect) :
    x.Holds t := by
  refine ⟨hoptions ▸ h.guides, hwatching.trans h.isWatching, hunits.trans h.units, fun id d hd => ?_⟩
  have hs := h.dialects id d hd
  obtain ⟨b, hb, -⟩ := Option.map_eq_some_iff.mp hs
  rw [hdialects id (by rw [hb]; rfl), hs]

theorem Holds.modifyBlock (h : x.Holds s) {g : Block → Block} (hg : ∀ b, (g b).dialect = b.dialect) (id : Nat) :
    x.Holds (s.modifyBlock id g) := by
  refine h.congr rfl rfl rfl fun other _ => ?_
  rw [Session.block?_modifyBlock]
  split
  · cases s.block? other with
    | none => rfl
    | some b => exact congrArg some (hg b)
  · rfl

theorem Holds.emit (h : x.Holds s) (block : Nat) (i : Instruction) (span : Span) : x.Holds (s.emit block i span) := by
  cases hw : s.isWatching with
  | true =>
    rw [Session.emit_watching hw]
    exact h.congr rfl rfl rfl fun _ _ => rfl
  | false =>
    obtain ⟨map, hs⟩ := Session.emit_compiling hw block i span
    have hmap : x.Holds { s with debugMap := map } := h.congr rfl rfl rfl fun _ _ => rfl
    rw [hs]
    exact hmap.modifyBlock (g := .put i) (fun _ => rfl) block

theorem Holds.noteEmission (h : x.Holds s) (f : Frame) (p : Nat) (i : Instruction) : x.Holds (s.noteEmission f p i) := by
  unfold Session.noteEmission
  split
  · exact h.congr rfl rfl rfl fun _ _ => rfl
  · exact h

/-- Where the session is as known, code of the frame has a stream to go to. -/
theorem Holds.canEmit (h : x.Holds s) (hb : x.Bears f) : s.CanEmit f.block := by
  cases hw : x.isWatching with
  | true => exact .inl (h.isWatching.trans hw)
  | false =>
    obtain ⟨b, hblock, -⟩ := Option.map_eq_some_iff.mp (h.dialects _ _ (hb.dialect hw))
    exact .inr (by rw [hblock]; rfl)

/-- The block that code of the frame goes to is of the dialect of the frame. -/
theorem Holds.dialect (h : x.Holds s) (hb : x.Bears f) (hw : s.isWatching = false) {b : Block}
    (hblock : s.block? f.block = some b) : b.dialect = f.dialect := by
  have hd := h.dialects _ _ (hb.dialect (h.isWatching.symm.trans hw))
  rw [hblock] at hd
  exact Option.some.inj hd

/-- Imperative code is the same. -/
theorem Holds.stream (h : x.Holds s) (hst : s.Fewer t) (hb : x.Bears f) :
    x.Same f (s.stream f.block) (t.stream f.block) := by
  intro hw hd
  have hws := h.isWatching.trans hw
  unfold Session.stream
  rw [hst.isWatching, hws, if_neg Bool.false_ne_true, if_neg Bool.false_ne_true]
  obtain ⟨hnone, hnone'⟩ | ⟨b, c, hblock, hblock', hbc⟩ := hst.block?_cases f.block
  · rw [hnone, hnone']
  · rw [hblock, hblock']
    exact hbc.same ((h.dialect hb hws hblock).trans hd)

end Ground

/-! ## Two runs -/

section
variable {α β : Type}

/-- How two runs end that go abreast. -/
inductive Meets (x : Ground) (R : α → β → Prop) :
    EStateM.Result Stop State α → EStateM.Result Stop State β → Prop where
  | ok {a : α} {b : β} {s t : State} : R a b → s.Fewer t → x.Holds s.session → Meets x R (.ok a s) (.ok b t)
  | error {e : Stop} {s t : State} : s.Fewer t → x.Holds s.session → Meets x R (.error e s) (.error e t)

/-- The first step, and the second one where no guides are asked for, end alike. -/
def Lockstep (x : Ground) (f : Frame) (R : α → β → Prop) (m : Lower α) (n : Lower β) : Prop :=
  ∀ s t, x.Holds s.session → s.Fewer t → Meets x R (m f s) (n f.unguided t)

end

namespace Lockstep

variable {α β γ δ : Type} {x : Ground} {f : Frame} {R : α → β → Prop} {S : γ → δ → Prop} {m : Lower α} {n : Lower β}

theorem mono {R' : α → β → Prop} (h : Lockstep x f R m n) (hR : ∀ a b, R a b → R' a b) : Lockstep x f R' m n := by
  intro s t hs hst
  have hrun := h s t hs hst
  generalize m f s = r at hrun ⊢
  generalize n f.unguided t = r' at hrun ⊢
  cases hrun with
  | ok hab huv hu => exact .ok (hR _ _ hab) huv hu
  | error huv hu => exact .error huv hu

theorem pure {a : α} {b : β} (h : R a b) : Lockstep x f R (Pure.pure a) (Pure.pure b) :=
  fun _ _ hs hst => .ok h hst hs

theorem andThen {k : α → Lower γ} {l : β → Lower δ} (hm : Lockstep x f R m n)
    (hk : ∀ a b, R a b → Lockstep x f S (k a) (l b)) : Lockstep x f S (m >>= k) (n >>= l) := by
  intro s t hs hst
  have hrun := hm s t hs hst
  rw [run_bind, run_bind]
  generalize m f s = r at hrun ⊢
  generalize n f.unguided t = r' at hrun ⊢
  cases hrun with
  | ok hab huv hu => exact hk _ _ hab _ _ hu huv
  | error huv hu => exact .error huv hu

theorem bind {m n : Lower α} {k : α → Lower γ} {l : α → Lower δ} (hm : Lockstep x f Eq m n)
    (hk : ∀ a, Lockstep x f S (k a) (l a)) : Lockstep x f S (m >>= k) (n >>= l) := by
  refine andThen hm fun a b hab => ?_
  subst hab
  exact hk a

/-- Nothing depends on what the first step returns. -/
theorem after {k : Lower γ} {l : Lower δ} (hm : Lockstep x f R m n) (hk : Lockstep x f S k l) :
    Lockstep x f S (m >>= fun _ => k) (n >>= fun _ => l) := andThen hm fun _ _ _ => hk

theorem ite {c : Prop} [Decidable c] {m' : Lower α} {n' : Lower β} (hm : Lockstep x f R m n)
    (hn : Lockstep x f R m' n') : Lockstep x f R (if c then m else m') (if c then n else n') := by
  split
  · exact hm
  · exact hn

/-- A step that is taken on a condition, before the steps behind it. -/
theorem onlyIf {c : Prop} [Decidable c] {k : Lower γ} {l : Lower δ} (hm : Lockstep x f R m n)
    (hk : Lockstep x f S k l) : Lockstep x f S (if c then m >>= fun _ => k else k) (if c then n >>= fun _ => l else l) :=
  ite (after hm hk) hk

theorem forM {l : List γ} {k k' : γ → Lower Unit} (h : ∀ a ∈ l, Lockstep x f Eq (k a) (k' a)) :
    Lockstep x f Eq (l.forM k) (l.forM k') := by
  induction l with
  | nil => exact pure rfl
  | cons a rest ih =>
    exact bind (h a (List.mem_cons_self ..)) fun _ => ih fun b hb => h b (List.mem_cons_of_mem a hb)

theorem withReader {g k : Frame → Frame} (hk : k f.unguided = (g f).unguided) (h : Lockstep x (g f) R m n) :
    Lockstep x f R (MonadWithReader.withReader g m) (MonadWithReader.withReader k n) := by
  intro s t hs hst
  rw [run_withReader, run_withReader, hk]
  exact h s t hs hst

theorem throw (stop : Stop) : Lockstep x f R (MonadExcept.throw stop) (MonadExcept.throw stop) :=
  fun _ _ hs hst => .error hst hs

theorem defect (d : Defect) : Lockstep x f R (Lowering.defect d) (Lowering.defect d) := throw _

/-! ## Reading -/

theorem withFrame {k : Frame → Lower α} {l : Frame → Lower β} (h : Lockstep x f R (k f) (l f.unguided)) :
    Lockstep x f R (read >>= k) (read >>= l) := h

theorem withSession {k : Session → Lower α} {l : Session → Lower β}
    (h : ∀ s t, x.Holds s → s.Fewer t → Lockstep x f R (k s) (l t)) :
    Lockstep x f R (getSession >>= k) (getSession >>= l) :=
  fun s t hs hst => h s.session t.session hs hst.session s t hs hst

theorem withState {k : State → Lower α} {l : State → Lower β} (h : ∀ s t, s.Fewer t → Lockstep x f R (k s) (l t)) :
    Lockstep x f R (get >>= k) (get >>= l) := fun s t hs hst => h s t hst s t hs hst

theorem classScope : Lockstep x f Eq classScope classScope := fun _ _ hs hst => .ok rfl hst hs

theorem classOperand : Lockstep x f Eq classOperand classOperand := fun _ _ hs hst => .ok rfl hst hs

theorem blockOperand : Lockstep x f Eq blockOperand blockOperand := fun _ _ hs hst => .ok rfl hst hs

theorem getBlock (id : Nat) : Lockstep x f Block.Fewer (getBlock id) (getBlock id) := by
  intro s t hs hst
  rw [run_getBlock, run_getBlock]
  obtain ⟨hb, hc⟩ | ⟨b, c, hb, hc, hbc⟩ := hst.session.block?_cases id
  · rw [hb, hc]
    exact .error hst hs
  · rw [hb, hc]
    exact .ok hbc hst hs

theorem getSymbol (r : SymbolRef) : Lockstep x f Eq (getSymbol r) (getSymbol r) := by
  intro s t hs hst
  rw [run_getSymbol, run_getSymbol, hst.session.sameNames.symbol?_eq]
  cases s.session.symbol? r with
  | none => exact .error hst hs
  | some symbol => exact .ok rfl hst hs

/-- What the code can see is the same, as far as names are looked up. -/
theorem withSight {k l : Sight → Lower α}
    (h : ∀ s t : Session, s.Fewer t → Lockstep x f Eq (k (sightFrom f s)) (l (sightFrom f.unguided t))) :
    Lockstep x f Eq (Lowering.sight >>= k) (Lowering.sight >>= l) := by
  intro s t hs hst
  have hnames := hst.session.sameNames
  have hsight : sightIn f.unguided t.session =
      (sightIn f s.session).map fun _ => sightFrom f.unguided t.session := by
    unfold sightIn sightFrom
    rw [hnames.enclosing?_eq]
    cases s.session.enclosing? f.block with
    | none => rfl
    | some blocks =>
      dsimp only [Frame.unguided]
      cases f.scope.body with
      | none => rfl
      | some body =>
        dsimp only
        rw [hnames.block?_isSome]
        split <;> rfl
  rw [run_bind, run_bind, run_sight, run_sight, hsight]
  cases hv : sightIn f s.session with
  | error id => exact .error hst hs
  | ok v =>
    obtain ⟨-, rfl⟩ := sight_ok (f := f) (s := s) (t := s) (v := v) (by rw [run_sight, hv])
    exact h s.session t.session hst.session s t hs hst

theorem pc (hb : x.Bears f) : Lockstep x f (x.Same f) pc pc := by
  intro s t hs hst
  have hcan := hs.canEmit hb
  rw [run_pc f s hcan, run_pc f.unguided t ((hst.session.canEmit _).mpr hcan)]
  exact .ok (fun hw hd => congrArg Array.size (hs.stream hst.session hb hw hd :)) hst hs

/-! ## Changing the state -/

theorem modifyState {g k : State → State}
    (hgk : ∀ s t, s.Fewer t → (g s).Fewer (k t)) (hg : ∀ s, (g s).session = s.session) :
    Lockstep x f Eq (modify g : Lower Unit) (modify k : Lower Unit) := by
  intro s t hs hst
  refine .ok rfl (hgk s t hst) ?_
  rw [hg]
  exact hs

theorem modifySession {g k : Session → Session} (hgk : ∀ s t, x.Holds s → s.Fewer t → (g s).Fewer (k t))
    (hg : ∀ s, x.Holds s → x.Holds (g s)) : Lockstep x f Eq (modifySession g) (modifySession k) :=
  fun s t hs hst => .ok rfl (hst.withSession (hgk s.session t.session hs hst.session)) (hg s.session hs)

/-- Something is written down in the session, beside its code. -/
theorem annotate {g : Session → Session} (hg : ∀ u, Session.Annotates g u)
    (hground : ∀ u, (g u).isWatching = u.isWatching ∧ (g u).counters.units = u.counters.units) :
    Lockstep x f Eq (Lowering.modifySession g) (Lowering.modifySession g) := by
  refine modifySession (fun s t _ hst => hst.annotate hg) fun s hs => ?_
  refine hs.congr (hg s).options (hground s).1 (hground s).2 fun id _ => ?_
  unfold Session.block?
  rw [(hg s).blocks]

theorem modifyBlocks {g k : Block → Block} (id : Nat) (hgk : ∀ b c, b.Fewer c → (g b).Fewer (k c))
    (hg : ∀ b, (g b).dialect = b.dialect) :
    Lockstep x f Eq (Lowering.modifyBlock id g) (Lowering.modifyBlock id k) := by
  refine after (getBlock id) ?_
  exact modifySession (fun s t _ hst => hst.modifyBlock id fun b c _ => hgk b c) fun s hs => hs.modifyBlock hg id

theorem modifyBlock {g : Block → Block} (id : Nat) (houtline : ∀ b, (g b).outline = g b.outline)
    (hcode : ∀ b, (g b).code = b.code ∧ (g b).entry = b.entry ∧ (g b).dialect = b.dialect) :
    Lockstep x f Eq (Lowering.modifyBlock id g) (Lowering.modifyBlock id g) :=
  modifyBlocks id (fun _ _ hbc => hbc.alter houtline hcode) fun b => (hcode b).2.2

/-- The node is changed, but for its range. -/
theorem modifyNodes {g k : GraphNode → GraphNode}
    (hgk : ∀ m n : GraphNode, n.placeless = m.placeless → (k n).placeless = (g m).placeless) :
    Lockstep x f Eq (Lowering.modifyNode g) (Lowering.modifyNode k) :=
  modifyState (fun s t hst => ⟨hst.session, hgk s.node t.node hst.node, hst.held, hst.pointers, hst.lastCallee⟩)
    fun _ => rfl

theorem modifyNode {g : GraphNode → GraphNode} (hg : ∀ n, (g n).placeless = g n.placeless) :
    Lockstep x f Eq (Lowering.modifyNode g) (Lowering.modifyNode g) := by
  refine modifyNodes fun m n hmn => ?_
  rw [hg, hmn, ← hg]

theorem note (level : LogLevel) (topic : LogTopic) (message message' : String) :
    Lockstep x f Eq (note level topic message) (note level topic message') :=
  modifySession (fun _ _ _ hst => hst.withLog _ _) fun _ hs => hs.congr rfl rfl rfl fun _ _ => rfl

theorem recordDiagnostic (d : Diagnostic) :
    Lockstep x f Eq (Lowering.modifySession fun s => s.report d) (Lowering.modifySession fun s => s.report d) := by
  refine modifySession (fun s t _ hst => ?_) fun _ hs => hs.congr rfl rfl rfl fun _ _ => rfl
  have hpushed : ({ s with diagnostics := s.diagnostics.push d } : Session).Fewer
      { t with diagnostics := t.diagnostics.push d } :=
    hst.annotate (g := fun u => { u with diagnostics := u.diagnostics.push d }) fun _ => ⟨rfl, rfl, rfl, rfl⟩
  exact hpushed.withLog _ _

theorem report (issue : Issue) (message : String) (span : Span) :
    Lockstep x f Eq (report issue message span) (report issue message span) := by
  intro s t hs hst
  have hrun := recordDiagnostic (x := x) (f := f) (s.session.diagnostic issue message span) s t hs hst
  rw [run_report, run_report, hst.session.diagnostic]
  exact hrun

theorem halt (issue : Issue) (message : String) (span : Span) :
    Lockstep x f R (halt issue message span) (halt issue message span) := by
  refine withSession fun s t _ hst => ?_
  rw [hst.diagnostic]
  exact bind (recordDiagnostic _) fun _ => throw _

/-! ## Emitting -/

/-- An instruction that counts no guides is emitted in both runs. Its debug records are the same in an imperative
block. -/
theorem emitWith (hb : x.Bears f) {i : Instruction} (hi : i.isGuideCount = false) (span : Span)
    {debug debug' : Option DebugRecord} (hdebug : x.Same f debug debug') :
    Lockstep x f (x.Same f) (emitWith i span debug) (emitWith i span debug') := by
  intro s t hs hst
  have hcan := hs.canEmit hb
  have hcan' := (hst.session.canEmit f.block).mpr hcan
  have hnote := hs.noteEmission f (s.session.stream f.block).size { i with debug }
  rw [run_emitWith i span debug f s hcan, run_emitWith i span debug' f.unguided t hcan']
  refine .ok (fun hw hd => congrArg Array.size (hs.stream hst.session hb hw hd :)) (hst.withSession ?_)
    (hnote.emit _ _ _)
  refine (hst.session.noteEmission _ _ _ _ _ _).emit span rfl hi fun hw b hblock hd => ?_
  rw [hdebug (hnote.isWatching.symm.trans hw) ((hnote.dialect hb hw hblock).symm.trans hd)]

theorem emitSilent (hb : x.Bears f) {i : Instruction} (hi : i.isGuideCount = false) (span : Span) :
    Lockstep x f (x.Same f) (emitSilent i span) (emitSilent i span) := emitWith hb hi span fun _ _ => rfl

theorem emitStepping (hb : x.Bears f) {i : Instruction} (hi : i.isGuideCount = false) (span : Span)
    (steps : List (Option Nat)) :
    Lockstep x f (x.Same f) (emitStepping i span steps) (emitStepping i span steps) := by
  refine andThen (pc hb) fun p q hpq => withSession fun s t _ hst => emitWith hb hi span fun hw hd => ?_
  rw [hpq hw hd, hst.options]
  rfl

theorem emit (hb : x.Bears f) {i : Instruction} (hi : i.isGuideCount = false) (span : Span) :
    Lockstep x f (x.Same f) (emit i span) (emit i span) := emitStepping hb hi span []

section
variable (hb : x.Bears f)
include hb

theorem emitPush (operand : Operand) (dims : Nat) (span : Span) :
    Lockstep x f (x.Same f) (emitPush operand dims span) (emitPush operand dims span) :=
  bind classOperand fun _ => emit hb rfl _

theorem emitPushm (operand : Operand) (cls : Option Nat) (span : Span) :
    Lockstep x f (x.Same f) (emitPushm operand cls span) (emitPushm operand cls span) :=
  bind blockOperand fun _ => emit hb rfl _

theorem emitPushlist (depth : Nat) (afterCall : Bool) (span : Span) :
    Lockstep x f (x.Same f) (emitPushlist depth afterCall span) (emitPushlist depth afterCall span) :=
  bind classOperand fun _ => bind blockOperand fun _ => emitSilent hb rfl _

theorem emitPushIndex (dims : Nat) :
    Lockstep x f (x.Same f) (emitPushIndex (.arrayDim dims)) (emitPushIndex (.arrayDim dims)) := emitSilent hb rfl _

theorem emitPushDims (dims : Nat) : Lockstep x f (x.Same f) (emitPushDims dims) (emitPushDims dims) :=
  bind classOperand fun _ => emitSilent hb rfl _

theorem emitPop (operand : Operand) (cls : Option Nat) (span : Span) :
    Lockstep x f (x.Same f) (emitPop operand cls span) (emitPop operand cls span) := emit hb rfl _

theorem emitPopSymbol (symbol : Symbol) (dims : Nat) (span : Span) :
    Lockstep x f (x.Same f) (emitPopSymbol symbol dims span) (emitPopSymbol symbol dims span) := by
  refine withSession fun s t _ hst => ?_
  rw [hst.options]
  exact ite (emitSilent hb rfl _) (emit hb rfl _)

theorem emitStore (symbol : Symbol) (dims : Nat) (span : Span) :
    Lockstep x f (x.Same f) (emitStore symbol dims span) (emitStore symbol dims span) := by
  have htype : Lockstep x f (x.Same f) (emitPushType symbol.type) (emitPushType symbol.type) :=
    bind classOperand fun _ => emitSilent hb rfl _
  have hdata : Lockstep x f (x.Same f) (emitPushVarData symbol.block dims symbol.type)
      (emitPushVarData symbol.block dims symbol.type) :=
    bind classOperand fun _ => after (emitSilent hb rfl _) (after (emitSilent hb rfl _) htype)
  exact after hdata (emitPopSymbol hb _ _ _)

theorem emitPoplist (depth : Nat) (start : Option Nat) (span : Span) :
    Lockstep x f (x.Same f) (emitPoplist depth start span) (emitPoplist depth start span) :=
  bind blockOperand fun _ => emit hb rfl _

theorem emitAlloca (count : Nat) (isString : Bool) :
    Lockstep x f (x.Same f) (emitAlloca count isString) (emitAlloca count isString) := emitSilent hb rfl _

theorem emitHeapBox (symbol : Symbol) : Lockstep x f Eq (emitHeapBox symbol) (emitHeapBox symbol) := by
  unfold Lowering.emitHeapBox
  split
  · exact pure rfl
  · exact after (emitSilent hb rfl _) (after (emitSilent hb rfl _) (pure rfl))

theorem emitCallTo (opcode : OpCode) (target : ProcRef) (depth : Nat) (span : Span) :
    Lockstep x f (x.Same f) (emitCallTo opcode target depth span) (emitCallTo opcode target depth span) := by
  refine emit hb ?_ _
  cases opcode <;> rfl

theorem emitLateCall (index depth : Nat) (span : Span) :
    Lockstep x f (x.Same f) (emitLateCall index depth span) (emitLateCall index depth span) :=
  bind classOperand fun _ => emit hb rfl _

theorem emitCjmp (condition : Operand) (holds : Nat) (span : Span) :
    Lockstep x f (x.Same f) (emitCjmp condition holds span) (emitCjmp condition holds span) := by
  refine withSession fun s t _ hst => ?_
  rw [hst.options]
  exact ite (emitSilent hb rfl _) (emitStepping hb rfl _ _)

theorem emitLeave : Lockstep x f (x.Same f) emitLeave emitLeave := by
  refine withFrame (emit hb ?_ _)
  split <;> rfl

theorem emitResult (span : Span) : Lockstep x f (x.Same f) (emitResult span) (emitResult span) :=
  bind classScope fun _ => after (emitPop hb _ _ _) (emitLeave hb)

/-! ## Guides -/

/-- Where guides are asked for, the first run counts those of a tree that has none, and goes on. -/
theorem counts (hguided : f.isGuided = true) {k : Lower α} (hk : Lockstep x f R k n) (count : Nat) :
    Lockstep x f R (Lowering.emitPushIndex (.guideCount count) >>= fun _ => k) n := by
  intro s t hs hst
  let i := Instruction.unary .pushindex (.guideCount count)
  let noted := s.session.noteEmission f (s.session.stream f.block).size i
  have hnoted : x.Holds noted := hs.noteEmission f _ i
  have hcounted : (noted.emit f.block i .nil).Fewer t.session :=
    (hst.session.noted f _ i).emitCount .nil rfl fun hw b hblock =>
      (hnoted.dialect hb hw hblock).trans (hb.guided hguided)
  have hrun : Lowering.emitPushIndex (.guideCount count) f s =
      .ok (s.session.stream f.block).size { s with session := noted.emit f.block i .nil } :=
    run_emitWith i .nil none f s (hs.canEmit hb)
  rw [run_bind, hrun]
  exact hk _ _ (hnoted.emit _ _ _) (hst.withSession hcounted)

omit hb in
/-- The second run never asks for guides. -/
theorem withGuides {k : Bool → Lower α} {l : Bool → Lower β}
    (hon : f.isGuided = true → x.asks = true → Lockstep x f R (k true) (l false))
    (hoff : Lockstep x f R (k false) (l false)) :
    Lockstep x f R (guidesWanted >>= k) (guidesWanted >>= l) := by
  intro s t hs hst
  have hrun (wanted : Bool) (hwanted : wanted = true → f.isGuided = true ∧ x.asks = true) :
      Meets x R (k wanted f s) (l false f.unguided t) := by
    cases wanted with
    | true => exact hon (hwanted rfl).1 (hwanted rfl).2 s t hs hst
    | false => exact hoff s t hs hst
  refine hrun _ fun h => ?_
  obtain ⟨hguided, hoptions⟩ := Bool.and_eq_true_iff.mp h
  exact ⟨hguided, hs.guides.symm.trans hoptions⟩

/-- A tree without guides has none counted but in the first run. -/
theorem emptyGuides {k : Lower α} {l : Lower β} (hk : Lockstep x f R k l) {guides : List Guide}
    (hguides : x.asks = true → guides = []) :
    Lockstep x f R (guidesWanted >>= fun wanted => if wanted then emitGuides guides >>= fun _ => k else k)
      (guidesWanted >>= fun wanted => if wanted then emitGuides guides >>= fun _ => l else l) := by
  refine withGuides (fun hguided hasks => ?_) hk
  have hempty : (emitGuides [] >>= fun _ => k) = Lowering.emitPushIndex (.guideCount 0) >>= fun _ => k := by
    simp [Lowering.emitGuides]
  rw [if_pos rfl, if_neg Bool.false_ne_true, hguides hasks, hempty]
  exact counts hb hguided hk 0

/-- Guides are asked for in the first run alone, and only in an associative block. -/
theorem guidedCall (h : ∀ g, x.Bears g → Lockstep x g R m n) :
    Lockstep x f R (guidedCall m) (guidedCall n) := by
  refine withSession fun s t _ hst => withReader ?_ (h _ ⟨hb.dialect, fun hguided => ?_⟩)
  · rw [hst.options]
    dsimp only
    split <;> rfl
  · dsimp only at hguided ⊢
    split at hguided
    · assumption
    · cases hguided

end

end Lockstep

end Lowering

end Diglot
