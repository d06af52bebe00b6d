import Diglot.Proofs.Tables.Invariant

/-! # What the code of a read tells about its variable

A variable is read by its position in the table that holds it. The instruction tells the kind of the
variable, and a segment of a chain also the class in whose scope it was declared, but neither tells
the table: variables at the same position of two tables around one block are read by the same
instruction. `reads_agree_iff` says when exactly two reads cannot be told apart.
-/

set_option autoImplicit false

namespace Diglot

open Lowering

/-! ## The last instruction of a stream -/

theorem emitWith_back {i : Instruction} {span : Span} {debug : Option DebugRecord} {f : Frame}
    {s t : State} {p : Nat} (h : emitWith i span debug f s = .ok p t) :
    (t.session.stream f.block).back? = some { i with debug } := by
  by_cases hcan : s.session.CanEmit f.block
  · rw [run_emitWith i span debug f s hcan] at h
    cases h
    have hcan' := (Session.canEmit_noteEmission f (s.session.stream f.block).size
      { i with debug }).mpr hcan
    rw [Session.stream_emit hcan', Array.back?_push]
  · rw [run_emitWith_error i span debug f s hcan] at h
    cases h

theorem emit_back {i : Instruction} {span : Span} {f : Frame} {s t : State} {p : Nat}
    (h : emit i span f s = .ok p t) :
    ∃ debug, (t.session.stream f.block).back? = some { i with debug } := by
  unfold emit emitStepping at h
  obtain ⟨pc, u, _, h⟩ := bind_eq_ok.mp h
  obtain ⟨session, w, _, h⟩ := bind_eq_ok.mp h
  exact ⟨_, emitWith_back h⟩

/-! ## Reads -/

/-- The instruction that reads a variable: one that stands alone behind its subscripts, or a segment
of a chain. -/
def readInstruction (f : Frame) (isSingle : Bool) (x : Symbol) (dims : Nat) : Instruction :=
  if isSingle then .ternary .push (.ofSymbol x) (.cls f.scope.classScope) (.arrayDim dims)
  else .ternary .pushm (.ofSymbol x) (.cls x.classScope) (.block f.block)

/-- Lowering a name that was bound to a symbol, behind `dims` subscripts, ended with an instruction.
The name is a segment of a value or the last segment of an assigned chain. -/
inductive EmitsRead (f : Frame) (s : State) (r : SymbolRef) (dims : Nat) (i : Instruction) :
    Prop where
  | segment {part : LowerPart} {ident : Identifier} {c c' : Cursor} {t : State} :
      lowerSymbol part ident c r f s = .ok c' t → c'.isStopped = false →
      ident.dims.length = dims → (t.session.stream f.block).back? = some i →
      EmitsRead f s r dims i
  | property {ident : Identifier} {c c' : Cursor} {span : Span} {t : State} :
      lowerProperty ident c (.found r) span f s = .ok c' t → ident.dims.length = dims →
      (t.session.stream f.block).back? = some i → EmitsRead f s r dims i

theorem getSymbol_ok {r : SymbolRef} {f : Frame} {s t : State} {x : Symbol}
    (h : getSymbol r f s = .ok x t) : s.session.symbol? r = some x ∧ t = s := by
  rw [run_getSymbol] at h
  cases hx : s.session.symbol? r with
  | none =>
    rw [hx] at h
    cases h
  | some y =>
    rw [hx] at h
    cases h
    exact ⟨rfl, rfl⟩

theorem emitPush_back {a : Operand} {dims : Nat} {span : Span} {f : Frame} {s t : State} {p : Nat}
    (h : emitPush a dims span f s = .ok p t) :
    ∃ debug, (t.session.stream f.block).back? =
      some { Instruction.ternary .push a (.cls f.scope.classScope) (.arrayDim dims) with debug } := by
  unfold emitPush at h
  rw [run_bind, run_classOperand] at h
  exact emit_back h

theorem emitPushm_back {a : Operand} {cls : Option Nat} {span : Span} {f : Frame} {s t : State}
    {p : Nat} (h : emitPushm a cls span f s = .ok p t) :
    ∃ debug, (t.session.stream f.block).back? =
      some { Instruction.ternary .pushm a (.cls cls) (.block f.block) with debug } := by
  unfold emitPushm at h
  rw [run_bind, run_blockOperand] at h
  exact emit_back h

theorem isStopped_stopChain {c c' : Cursor} {span : Span} {f : Frame} {s t : State}
    (h : stopChain c span f s = .ok c' t) : c'.isStopped = true := by
  unfold stopChain at h
  obtain ⟨_, _, _, h⟩ := bind_eq_ok.mp h
  cases h
  rfl

/-- A segment that was bound to a symbol ends with its read, unless a class name before it is in the
way. -/
theorem lowerSymbol_back {part : LowerPart} {ident : Identifier} {c c' : Cursor} {r : SymbolRef}
    {f : Frame} {s t : State} (hrun : lowerSymbol part ident c r f s = .ok c' t)
    (hstopped : c'.isStopped = false) :
    ∃ x isSingle debug, s.session.symbol? r = some x ∧
      (t.session.stream f.block).back? =
        some { readInstruction f isSingle x ident.dims.length with debug } := by
  unfold lowerSymbol at hrun
  obtain ⟨x, u, hget, hrun⟩ := bind_eq_ok.mp hrun
  have hx := (getSymbol_ok hget).1
  generalize (if x.isStatic then none else c.anchor) = anchor at hrun
  cases anchor with
  | some cls =>
    obtain ⟨_, _, _, hrun⟩ := bind_eq_ok.mp hrun
    obtain ⟨_, _, _, hrun⟩ := bind_eq_ok.mp hrun
    rw [isStopped_stopChain hrun] at hstopped
    cases hstopped
  | none =>
    obtain ⟨_, _, _, hrun⟩ := bind_eq_ok.mp hrun
    obtain ⟨_, _, _, hrun⟩ := bind_eq_ok.mp hrun
    obtain ⟨_, w, _, hrun⟩ := bind_eq_ok.mp hrun
    rw [run_ite] at hrun
    split at hrun
    · obtain ⟨_, t', hemit, hrun⟩ := bind_eq_ok.mp hrun
      cases hrun
      obtain ⟨debug, hlast⟩ := emitPush_back hemit
      exact ⟨x, true, debug, hx, hlast⟩
    · have hpushm : ∃ w p, emitPushm (.ofSymbol x) x.classScope ident.span f w = .ok p t := by
        rw [run_ite] at hrun
        split at hrun
        · obtain ⟨_, w', _, hrun⟩ := bind_eq_ok.mp hrun
          obtain ⟨p, t', hemit, hrun⟩ := bind_eq_ok.mp hrun
          cases hrun
          exact ⟨w', p, hemit⟩
        · obtain ⟨p, t', hemit, hrun⟩ := bind_eq_ok.mp hrun
          cases hrun
          exact ⟨w, p, hemit⟩
      obtain ⟨w', p, hemit⟩ := hpushm
      obtain ⟨debug, hlast⟩ := emitPushm_back hemit
      exact ⟨x, false, debug, hx, hlast⟩

theorem lowerProperty_back {ident : Identifier} {c c' : Cursor} {r : SymbolRef} {span : Span}
    {f : Frame} {s t : State} (hrun : lowerProperty ident c (.found r) span f s = .ok c' t) :
    ∃ x debug, s.session.symbol? r = some x ∧
      (t.session.stream f.block).back? =
        some { readInstruction f false x ident.dims.length with debug } := by
  unfold lowerProperty at hrun
  obtain ⟨x, u, hget, hrun⟩ := bind_eq_ok.mp hrun
  obtain ⟨_, t', hemit, hrun⟩ := bind_eq_ok.mp hrun
  cases hrun
  obtain ⟨debug, hlast⟩ := emitPushm_back hemit
  exact ⟨x, debug, (getSymbol_ok hget).1, hlast⟩

/-- What a name that was bound to a symbol is read by. -/
theorem EmitsRead.eq {f : Frame} {s : State} {r : SymbolRef} {dims : Nat} {i : Instruction}
    (h : EmitsRead f s r dims i) :
    ∃ x isSingle debug, s.session.symbol? r = some x ∧
      i = { readInstruction f isSingle x dims with debug } := by
  cases h with
  | segment hrun hstopped hdims hback =>
    obtain ⟨x, isSingle, debug, hx, hlast⟩ := lowerSymbol_back hrun hstopped
    rw [hback, hdims] at hlast
    exact ⟨x, isSingle, debug, hx, Option.some.inj hlast⟩
  | property hrun hdims hback =>
    obtain ⟨x, debug, hx, hlast⟩ := lowerProperty_back hrun
    rw [hback, hdims] at hlast
    exact ⟨x, false, debug, hx, Option.some.inj hlast⟩

/-! ## Reads that cannot be told apart -/

/-- Variables of the same kind: both outside of classes, both members of objects, or both static. -/
def Symbol.SameKind (x y : Symbol) : Prop :=
  x.isMember = y.isMember ∧ (x.isMember = true → x.isStatic = y.isStatic)

theorem ofSymbol_eq_iff (x y : Symbol) :
    Operand.ofSymbol x = Operand.ofSymbol y ↔ x.SameKind y ∧ x.position = y.position := by
  unfold Operand.ofSymbol Symbol.SameKind
  cases x.isMember <;> cases y.isMember <;> cases x.isStatic <;> cases y.isStatic <;> simp

theorem Session.Coherent.position {s : Session} (h : s.Coherent) {r : SymbolRef} {x : Symbol}
    (hx : s.symbol? r = some x) : x.position = r.index := by
  obtain ⟨owner, i⟩ := r
  cases owner with
  | block id =>
    rw [symbol?_block] at hx
    obtain ⟨hd, hs, hget⟩ := Option.bind_eq_some_iff.mp hx
    exact (h.entries id hd hs i x hget).1
  | cls id =>
    obtain ⟨c, hc, hget⟩ := Option.bind_eq_some_iff.mp hx
    exact h.members id c hc i x hget

/-- Reads of one form have the same operands if the variables are of the same kind and at the same
position, and the class that the form names is the same. -/
theorem readInstruction_operands_iff {f g : Frame} (hblock : f.block = g.block) (isSingle : Bool)
    (x y : Symbol) (dims : Nat) :
    (readInstruction f isSingle x dims).operands = (readInstruction g isSingle y dims).operands ↔
      (x.SameKind y ∧ x.position = y.position) ∧
        if isSingle then f.scope.classScope = g.scope.classScope
        else x.classScope = y.classScope := by
  have hoperands (op : OpCode) (a b c : Operand) :
      (Instruction.ternary op a b c).operands = [a, b, c] := rfl
  unfold readInstruction
  cases isSingle with
  | true => simp [hoperands, ofSymbol_eq_iff]
  | false => simp [hoperands, ofSymbol_eq_iff, hblock]

theorem readInstruction_opcode (f : Frame) (isSingle : Bool) (x : Symbol) (dims : Nat) :
    (readInstruction f isSingle x dims).opcode = if isSingle then .push else .pushm := by
  unfold readInstruction
  split <;> rfl

/-- Reads of different forms differ in their last operand. -/
theorem isSingle_of_operands {f g : Frame} {a b : Bool} {x y : Symbol} {dims : Nat}
    (h : (readInstruction f a x dims).operands = (readInstruction g b y dims).operands) : a = b := by
  cases a <;> cases b <;> simp [readInstruction, Instruction.operands, Instruction.ternary] at h ⊢

/-- Two reads in one block that are bound to different symbols have the same operands exactly if the
symbols stand at the same position of different tables, are of the same kind, and the class operands
agree: that of the code for a variable that stands alone, and that of the variable in a chain. -/
theorem reads_agree_iff {f g : Frame} {s t : State} (hs : Moment f.site s.session)
    (ht : Moment g.site t.session) {r q : SymbolRef} {dims : Nat} {i j : Instruction}
    (hi : EmitsRead f s r dims i) (hj : EmitsRead g t q dims j) (hblock : f.block = g.block)
    (hne : r ≠ q) :
    i.operands = j.operands ↔
      i.opcode = j.opcode ∧ r.owner ≠ q.owner ∧ r.index = q.index ∧
        ∃ x y, s.session.symbol? r = some x ∧ t.session.symbol? q = some y ∧ x.SameKind y ∧
          if i.opcode = .push then f.scope.classScope = g.scope.classScope
          else x.classScope = y.classScope := by
  obtain ⟨x, a, debug, hx, hi'⟩ := hi.eq
  obtain ⟨y, b, debug', hy, hj'⟩ := hj.eq
  have hxpos := hs.coherent.1.position hx
  have hypos := ht.coherent.1.position hy
  have hiops : i.operands = (readInstruction f a x dims).operands := by rw [hi']; rfl
  have hjops : j.operands = (readInstruction g b y dims).operands := by rw [hj']; rfl
  have hiop : i.opcode = if a then .push else .pushm := by
    rw [hi', ← readInstruction_opcode f a x dims]
  have hjop : j.opcode = if b then .push else .pushm := by
    rw [hj', ← readInstruction_opcode g b y dims]
  have howner : r.index = q.index → r.owner ≠ q.owner := by
    intro hindex howner
    obtain ⟨ro, ri⟩ := r
    obtain ⟨qo, qi⟩ := q
    cases hindex
    cases howner
    exact hne rfl
  have hform : (if i.opcode = .push then f.scope.classScope = g.scope.classScope
        else x.classScope = y.classScope) ↔
      if a then f.scope.classScope = g.scope.classScope else x.classScope = y.classScope := by
    rw [hiop]
    cases a <;> simp
  rw [hiops, hjops]
  constructor
  · intro h
    have hab := isSingle_of_operands h
    subst hab
    obtain ⟨⟨hkind, hpos⟩, hcls⟩ := (readInstruction_operands_iff hblock a x y dims).mp h
    have hindex : r.index = q.index := by rw [← hxpos, ← hypos, hpos]
    exact ⟨hiop.trans hjop.symm, howner hindex, hindex, x, y, hx, hy, hkind, hform.mpr hcls⟩
  · rintro ⟨hop, _, hindex, x', y', hx', hy', hkind, hcls⟩
    have hab : a = b := by
      rw [hiop, hjop] at hop
      cases a <;> cases b <;> simp at hop ⊢
    subst hab
    cases hx.symm.trans hx'
    cases hy.symm.trans hy'
    have hpos : x.position = y.position := by rw [hxpos, hypos, hindex]
    exact (readInstruction_operands_iff hblock a x y dims).mpr ⟨⟨hkind, hpos⟩, hform.mp hcls⟩

/-- An imperative unit with a variable, and in it a block that reads this variable and its own. -/
def nestedReads : List Node :=
  [.assignment (bareName "x") (.literal .int "1" .nil),
    .block .imperative
      [.assignment (bareName "y") (.literal .int "2" .nil),
        .assignment (bareName "z") (bareName "x"),
        .assignment (bareName "w") (bareName "y")] .nil]

def nestedReadsSession : Session := ((Session.new {}).compile nestedReads .imperative).2

def nestedReadsFrame : Frame := { block := 1, scope := {}, dialect := .imperative }

/-- Lowering a name that stands alone and is bound to a symbol ends with a read. -/
def lastRead? (name : String) (r : SymbolRef) (f : Frame) (s : State) : Option Instruction :=
  match lowerSymbol expression (.plain name .nil) (.start true) r f s with
  | .ok c t => if c.isStopped then none else (t.session.stream f.block).back?
  | .error _ _ => none

theorem EmitsRead.of_lastRead? {name : String} {r : SymbolRef} {f : Frame} {s : State}
    {i : Instruction} (h : lastRead? name r f s = some i) : EmitsRead f s r 0 i := by
  unfold lastRead? at h
  split at h
  · rename_i c t hrun
    split at h
    · cases h
    · rename_i hstopped
      exact .segment hrun (Bool.eq_false_iff.mpr hstopped) rfl h
  · cases h

/-- The reads of `x`, which is declared around the block, and of `y`, which is declared in it. -/
theorem nestedReads_agree_iff :
    let s : State := { session := { nestedReadsSession with isWatching := true } }
    ∃ i j, EmitsRead nestedReadsFrame s ⟨.block 0, 0⟩ 0 i ∧
      EmitsRead nestedReadsFrame s ⟨.block 1, 0⟩ 0 j ∧ i.operands = j.operands := by
  have hreached : nestedReadsSession.Reached :=
    Session.Reached.ofCompiled (.new {}) (by decide +kernel)
  have hmoment : Moment nestedReadsFrame { nestedReadsSession with isWatching := true } :=
    .ofWatch hreached 1 (by decide +kernel)
  have hx : (lastRead? "x" ⟨.block 0, 0⟩ nestedReadsFrame
      { session := { nestedReadsSession with isWatching := true } }).map Instruction.opcode =
      some .push := by decide +kernel
  have hy : (lastRead? "y" ⟨.block 1, 0⟩ nestedReadsFrame
      { session := { nestedReadsSession with isWatching := true } }).map Instruction.opcode =
      some .push := by decide +kernel
  have hsx : (Session.symbol? { nestedReadsSession with isWatching := true } ⟨.block 0, 0⟩).map
      Symbol.isMember = some false := by decide +kernel
  have hsy : (Session.symbol? { nestedReadsSession with isWatching := true } ⟨.block 1, 0⟩).map
      Symbol.isMember = some false := by decide +kernel
  generalize ({ nestedReadsSession with isWatching := true } : Session) = s at *
  obtain ⟨i, hi, hiop⟩ := Option.map_eq_some_iff.mp hx
  obtain ⟨j, hj, hjop⟩ := Option.map_eq_some_iff.mp hy
  obtain ⟨x, hxs, hxm⟩ := Option.map_eq_some_iff.mp hsx
  obtain ⟨y, hys, hym⟩ := Option.map_eq_some_iff.mp hsy
  have hri := EmitsRead.of_lastRead? hi
  have hrj := EmitsRead.of_lastRead? hj
  have hkind : x.SameKind y := ⟨hxm.trans hym.symm, fun h => by rw [hxm] at h; cases h⟩
  refine ⟨i, j, hri, hrj, ?_⟩
  have hagree := reads_agree_iff (f := nestedReadsFrame) (g := nestedReadsFrame)
    (s := { session := s }) (t := { session := s }) hmoment hmoment hri hrj rfl (by decide)
  refine hagree.mpr ⟨hiop.trans hjop.symm, by decide, rfl, x, y, hxs, hys, hkind, ?_⟩
  rw [if_pos hiop]

/-- Two reads in the code of a block are the same instruction, and stand for different variables. -/
theorem nestedReads_ambiguous :
    let s := nestedReadsSession
    let v : Sight := ⟨s, nestedReadsFrame, [1, 0]⟩
    s.enclosing? 1 = some [1, 0] ∧ v.resolve "x" = .found ⟨.block 0, 0⟩ ∧
      v.resolve "y" = .found ⟨.block 1, 0⟩ ∧
      (s.block? 1).bind (fun b => b.code[5]?) =
        some (.ternary .push (.var 0) (.cls none) (.arrayDim 0)) ∧
      (s.block? 1).bind (fun b => b.code[10]?) =
        some (.ternary .push (.var 0) (.cls none) (.arrayDim 0)) := by
  decide +kernel

end Diglot
