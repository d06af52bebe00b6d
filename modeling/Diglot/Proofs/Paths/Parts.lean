import Diglot.Proofs.Anchors.Passes
import Diglot.Proofs.Chains.Recorded
import Diglot.Proofs.Origins.Expression
import Diglot.Proofs.Paths.Written

/-! # What the names of a chain leave behind

A name of a chain leaves a `PathPart` behind: the code and the late-bound members of its subscripts, and the instruction
that pushes it. `PathRecord` is what a whole chain leaves behind whose names in front are resolved statically
(`Sight.ResolvesUpTo`), and whose names behind are looked up at run time.
-/

set_option autoImplicit false

namespace Diglot

open Lowering

/-- Code was put behind that of the block; every name still stands for what it stood for. -/
structure Session.Appends (s : Session) (block : Nat) (t : Session) (code : List Instruction) : Prop where
  code : ∃ added, (t.stream block).toList = (s.stream block).toList ++ added ∧
    added.map Instruction.unmarked = code
  names : s.SameNames t

/-- The entry with further members behind. -/
def LateVariable.extend (names : List String) (e : LateVariable) : LateVariable :=
  { e with members := e.members ++ names }

/-- An entry of two lists one behind the other is changed in the list that it is from. -/
theorem modify_append {α : Type} (g : α → α) (l l' : List α) (i : Nat) :
    (l ++ l').modify i g = if i < l.length then l.modify i g ++ l' else l ++ l'.modify (i - l.length) g := by
  induction l generalizing i with
  | nil => simp
  | cons a rest ih =>
    cases i with
    | zero => simp
    | succ i =>
      simp only [List.cons_append, List.modify_succ_cons, ih, List.length_cons, Nat.add_lt_add_iff_right,
        Nat.add_sub_add_right]
      split <;> rfl

namespace Session

variable {s t u : Session} {block : Nat} {code code' : List Instruction} {late late' : List LateVariable}

theorem Appends.refl (s : Session) (block : Nat) : s.Appends block s [] := ⟨⟨[], by simp, rfl⟩, .refl s⟩

theorem Appends.trans (h : s.Appends block t code) (h' : t.Appends block u code') :
    s.Appends block u (code ++ code') := by
  obtain ⟨added, hadded, rfl⟩ := h.code
  obtain ⟨added', hadded', rfl⟩ := h'.code
  refine ⟨⟨added ++ added', ?_, List.map_append⟩, h.names.trans h'.names⟩
  rw [hadded', hadded, List.append_assoc]

theorem Appends.ofSame (hstream : t.stream block = s.stream block) (hnames : s.SameNames t) :
    s.Appends block t [] := ⟨⟨[], by rw [hstream, List.append_nil], rfl⟩, hnames⟩

/-- Code was put behind that of the block, and late-bound members behind those that were there. -/
structure Adds (s : Session) (block : Nat) (t : Session) (code : List Instruction) (late : List LateVariable) : Prop
    extends s.Appends block t code where
  late : t.lateVariables.toList = s.lateVariables.toList ++ late

theorem Adds.refl (s : Session) (block : Nat) : s.Adds block s [] [] := ⟨.refl s block, by simp⟩

theorem Adds.trans (h : s.Adds block t code late) (h' : t.Adds block u code' late') :
    s.Adds block u (code ++ code') (late ++ late') :=
  ⟨h.toAppends.trans h'.toAppends, by rw [h'.late, h.late, List.append_assoc]⟩

theorem Adds.size (h : s.Adds block t code late) : t.lateVariables.size = s.lateVariables.size + late.length := by
  simpa using congrArg List.length h.late

/-- Where nothing can be emitted, nothing is. -/
theorem exists_adds_emit (s : Session) (block : Nat) (i : Instruction) (span : Span) :
    ∃ code, s.Adds block (s.emit block i span) code [] := by
  obtain ⟨debugMap, blocks, watch, hemit⟩ := s.emit_eq block i span
  have hlate : (s.emit block i span).lateVariables.toList = s.lateVariables.toList ++ [] := by
    rw [hemit, List.append_nil]
  by_cases hcan : s.CanEmit block
  · refine ⟨[i.unmarked], ⟨⟨[i], ?_, rfl⟩, s.sameNames_emit block i span⟩, hlate⟩
    rw [stream_emit hcan, Array.toList_push]
  · refine ⟨[], ⟨⟨[], ?_, rfl⟩, s.sameNames_emit block i span⟩, hlate⟩
    have hnot : s.isWatching = false ∧ s.block? block = none := by
      simpa [CanEmit, Option.isSome_iff_ne_none] using hcan
    have hblock : (s.emit block i span).block? block = none := by
      unfold emit
      rw [if_neg (by simp [hnot.1]), block?_modifyBlock, if_pos rfl]
      exact congrArg (Option.map _) hnot.2
    have hwatching : (s.emit block i span).isWatching = false := by rw [hemit]; exact hnot.1
    rw [List.append_nil, stream, stream, hwatching, hblock, hnot.1, hnot.2]
    rfl

/-- Whatever the code of an expression does, it puts code behind that of its block, and late-bound members behind
those that were there. -/
theorem endures_adds (s : Session) (block : Nat) :
    Endures (fun t => ∃ code late, s.Adds block t code late) s.lateVariables.size block where
  log t r := fun ⟨code, late, h⟩ => ⟨code, late, ⟨h.code, h.names.trans ⟨rfl, rfl, rfl, rfl, rfl, rfl⟩⟩, h.late⟩
  diagnostics t d := fun ⟨code, late, h⟩ =>
    ⟨code, late, ⟨h.code, h.names.trans ⟨rfl, rfl, rfl, rfl, rfl, rfl⟩⟩, h.late⟩
  emit t i span _ := fun ⟨code, late, h⟩ => by
    obtain ⟨code', h'⟩ := t.exists_adds_emit block i span
    exact ⟨_, _, h.trans h'⟩
  lateVariable t e := fun ⟨code, late, h⟩ => by
    refine ⟨code, late ++ [e], ⟨h.code, h.names.trans ⟨rfl, rfl, rfl, rfl, rfl, rfl⟩⟩, ?_⟩
    rw [Array.toList_push, h.late, List.append_assoc]
  lateMember t i g hi := fun ⟨code, late, h⟩ => by
    refine ⟨code, late.modify (i - s.lateVariables.size) g, ⟨h.code, h.names.trans ⟨rfl, rfl, rfl, rfl, rfl, rfl⟩⟩, ?_⟩
    rw [Array.toList_modify, h.late, modify_append, Array.length_toList, if_neg (Nat.not_lt.mpr hi)]
  lateFunction t e := fun ⟨code, late, h⟩ =>
    ⟨code, late, ⟨h.code, h.names.trans ⟨rfl, rfl, rfl, rfl, rfl, rfl⟩⟩, h.late⟩
  known t := fun ⟨_, _, h⟩ => by
    rw [h.size]
    exact Nat.le_add_right ..

end Session

namespace Lowering

variable {α : Type} {f : Frame} {s t : State} {a : Nat} {i : Instruction} {span : Span}

theorem adds_emits {m : Lower Nat} (h : Mild.Emits i span m) (hrun : m f s = .ok a t) :
    s.session.Adds f.block t.session [i.unmarked] [] := by
  obtain ⟨debug, hm⟩ := h f s
  by_cases hcan : s.session.CanEmit f.block
  · obtain ⟨_, _, hrun', hp⟩ := passes_emits h hcan
    cases hrun.symm.trans hrun'
    rw [hm, run_emitWith i span debug f s hcan] at hrun
    cases hrun
    refine ⟨⟨hp.code, hp.names⟩, ?_⟩
    dsimp only
    obtain ⟨log, hlog⟩ := s.session.noteEmission_eq f (s.session.stream f.block).size { i with debug }
    obtain ⟨debugMap, blocks, watch, hemit⟩ := (s.session.noteEmission f (s.session.stream f.block).size
      { i with debug }).emit_eq f.block { i with debug } span
    rw [hemit, hlog, List.append_nil]
  · rw [hm, run_emitWith_error i span debug f s hcan] at hrun
    cases hrun

theorem adds_emitPushDims {dims : Nat} (hrun : emitPushDims dims f s = .ok a t) :
    s.session.Adds f.block t.session [.binary .push (.arrayDim dims) (.cls f.scope.classScope)] [] :=
  adds_emits (m := emitSilent (.binary .push (.arrayDim dims) (.cls f.scope.classScope)) .nil)
    (Mild.emits_emitWith _ .nil none) hrun

theorem adds_emitPushm {o : Operand} {cls : Option Nat} (hrun : emitPushm o cls span f s = .ok a t) :
    s.session.Adds f.block t.session [.ternary .pushm o (.cls cls) (.block f.block)] [] :=
  adds_emits (m := emit (.ternary .pushm o (.cls cls) (.block f.block)) span) (Mild.emits_emitStepping _ span []) hrun

/-- The subscripts put code behind that of the block, and late-bound members behind those that were there. -/
theorem adds_lowerDims {dims : List Node} (hrun : lowerDims expression dims f s = .ok () t) :
    ∃ code late, s.session.Adds f.block t.session code late := by
  have hI := s.session.endures_adds f.block
  have hspared : Spares (fun t => ∃ code late, s.session.Adds f.block t code late) f (lowerDims expression dims) :=
    .lowerDims (fun g n hg => .expression n (by rw [hg]; exact hI)) dims
  exact hspared.ok ⟨[], [], .refl _ _⟩ hrun

/-! ## What a chain of names leaves behind -/

/-- What the name of one segment leaves behind. -/
structure PathPart where
  ident : Identifier
  /-- The code of its subscripts. -/
  inner : List Instruction
  /-- The late-bound members that its subscripts enter. -/
  entries : List LateVariable
  /-- How many subscripts are lowered. -/
  dims : Nat
  /-- What is pushed for the segment; nothing where its setter is called. -/
  operand : Option Operand
  /-- The class with which it is pushed. -/
  cls : Option Nat

/-- The code of the segment in a frame. -/
def PathPart.code (f : Frame) (p : PathPart) : List Instruction :=
  p.inner ++ (if 0 < p.dims then [.binary .push (.arrayDim p.dims) (.cls f.scope.classScope)] else []) ++
    (p.operand.map fun o => .ternary .pushm o (.cls p.cls) (.block f.block)).toList

/-- The subscripts of the segment have been lowered where names stand for the same as in `s`, and when there were
`first` late-bound members. Those of the current object and of the name of a class are not lowered. -/
inductive PathPart.IsLowered (f : Frame) (s : Session) (first : Nat) (p : PathPart) : Prop where
  | bare : p.inner = [] → p.entries = [] → p.dims = 0 → (p.operand = some .this ∨ ∃ cls, p.operand = some (.cls cls)) →
      p.IsLowered f s first
  | subscripted {g : Frame} {u w : State} : g.site = f.site → s.SameNames u.session →
      u.session.lateVariables.size = first → lowerDims expression p.ident.dims g u = .ok () w →
      w.session.lateVariables.toList = u.session.lateVariables.toList ++ p.entries →
      u.session.Appends f.block w.session p.inner → p.dims = p.ident.dims.length → p.IsLowered f s first

/-- The subscripts of the segments have been lowered one after the other, the first ones when there were `first`
late-bound members. -/
def PathPart.AreLowered (f : Frame) (s : Session) : Nat → List PathPart → Prop
  | _, [] => True
  | first, p :: rest => p.IsLowered f s first ∧ AreLowered f s (first + p.entries.length) rest

/-- The entry of a chain whose names from the given parts on are looked up at run time. -/
def ownEntry (f : Frame) : List PathPart → List LateVariable
  | [] => []
  | p :: rest => [⟨p.ident.name, rest.map fun q => q.ident.name, f.scope.function, f.scope.classScope⟩]

/-- What a chain leaves behind whose names in front are resolved statically, and whose names behind are looked up at
run time. -/
structure PathRecord (f : Frame) (s t : State) (front back : List PathPart) : Prop where
  /-- Around the segments no other ones are pushed. -/
  code : ∃ before after, (∀ i ∈ before ++ after, i.opcode ≠ .pushm) ∧
    s.session.Appends f.block t.session (before ++ (front ++ back).flatMap (PathPart.code f) ++ after)
  static : ∀ p ∈ front, ∀ i, p.operand ≠ some (.dynamic i)
  /-- The entry of the chain stands behind those of the subscripts that are lowered before it is made, and in front of
  those of the other subscripts. -/
  entries : ∃ early later, early ++ later = front ++ back ∧ front <+: early ∧
    t.session.lateVariables.toList = s.session.lateVariables.toList ++ early.flatMap PathPart.entries ++
      ownEntry f back ++ later.flatMap PathPart.entries ∧
    PathPart.AreLowered f s.session s.session.lateVariables.size early ∧
    PathPart.AreLowered f s.session (s.session.lateVariables.size + (early.flatMap PathPart.entries).length +
      (ownEntry f back).length) later ∧
    ∀ p ∈ back, p.operand = some (.dynamic (s.session.lateVariables.size + (early.flatMap PathPart.entries).length))

/-! ## Which names are resolved -/

namespace Sight

/-- The last name of an assigned chain stands for a setter or for a member. -/
def ResolvesProperty (v : Sight) (c : Cursor) (property : Identifier) : Prop :=
  (setter? v c.receiver? property).isSome ∨ ∃ r, v.propertyTarget c property = .found r

/-- The names in front are resolved statically, one after the other, and the first of those behind is not. -/
inductive ResolvesUpTo (v : Sight) : Bool → List Identifier → List Identifier → Prop where
  | read {names : List Identifier} {d : Cursor} : v.follow? (.start false) names = some d →
      v.ResolvesUpTo false names []
  | assigned {names : List Identifier} {d : Cursor} {property : Identifier} :
      v.follow? (.start false) names = some d → v.ResolvesProperty d property →
      v.ResolvesUpTo true (names ++ [property]) []
  | segment {isAssigned : Bool} {names rest : List Identifier} {d : Cursor} {ident : Identifier} :
      v.follow? (.start false) names = some d → v.stepName? d ident = none → (isAssigned = true → rest ≠ []) →
      v.ResolvesUpTo isAssigned names (ident :: rest)
  | property {names : List Identifier} {d : Cursor} {property : Identifier} :
      v.follow? (.start false) names = some d → ¬ v.ResolvesProperty d property →
      v.ResolvesUpTo true names [property]

end Sight

/-- A chain of names is read or assigned, and null takes the place of none of its segments. -/
inductive LowersNames (f : Frame) (s t : State) : Bool → List Identifier → Prop where
  | read {idents : List Identifier} {segments : List Node} {span : Span} {type : Ty} {c : Cursor} {u : State} :
      segments.map Node.unwrap = idents.map .identifier → 1 < idents.length →
      lowerChain expression segments span f s = .ok type t →
      chainCursor expression segments span f s = .ok c u → c.isStopped = false → LowersNames f s t false idents
  | assigned {idents : List Identifier} {property : Identifier} {target : Node} {segments : List Node} {path : Path}
      {c : Cursor} {u : State} :
      target.segments = .ok (segments ++ [.identifier property]) →
      segments.map Node.unwrap = idents.map .identifier → idents ≠ [] →
      storeChain target f s = .ok path t →
      untracked (lowerSegments expression false (idents.map .identifier) (.start false)) f s = .ok c u →
      c.isStopped = false →
      ((setter? (sightFrom f s.session) c.receiver? property).isSome ∨
        ∀ r, (sightFrom f s.session).propertyTarget c property ≠ .inaccessible r) →
      LowersNames f s t true (idents ++ [property])

variable {f : Frame} {s t u : State} {c d e : Cursor} {ident : Identifier}

/-! ## Parts -/

namespace PathPart

variable {p : PathPart} {a b : Session} {first : Nat}

theorem IsLowered.congr (h : p.IsLowered f b first) (hnames : a.SameNames b) : p.IsLowered f a first := by
  cases h with
  | bare hinner hentries hdims hoperand => exact .bare hinner hentries hdims hoperand
  | subscripted hsite hu hfirst hrun hentries hcode hdims =>
    exact .subscripted hsite (hnames.trans hu) hfirst hrun hentries hcode hdims

theorem AreLowered.congr {l : List PathPart} (h : AreLowered f b first l) (hnames : a.SameNames b) :
    AreLowered f a first l := by
  induction l generalizing first with
  | nil => trivial
  | cons p rest ih => exact ⟨h.1.congr hnames, ih h.2⟩

theorem AreLowered.append {l l' : List PathPart} (h : AreLowered f a first l)
    (h' : AreLowered f a (first + (l.flatMap entries).length) l') : AreLowered f a first (l ++ l') := by
  induction l generalizing first with
  | nil => simpa using h'
  | cons p rest ih =>
    refine ⟨h.1, ih h.2 ?_⟩
    rw [List.flatMap_cons, List.length_append, ← Nat.add_assoc] at h'
    exact h'

end PathPart

/-! ## One name -/

/-- The segment was pushed and its subscripts were lowered before. -/
structure Pushes (f : Frame) (s t : State) (p : PathPart) : Prop where
  adds : s.session.Adds f.block t.session (p.code f) p.entries
  lowered : p.IsLowered f s.session s.session.lateVariables.size

/-- Behind the subscripts their number is pushed, if there are any. -/
theorem pushDims_ok {α : Type} {dims : Nat} {k : Lower α} {a : α}
    (hrun : (if 0 < dims then emitPushDims dims >>= fun _ => k else k) f s = .ok a t) :
    ∃ u, s.session.Adds f.block u.session
        (if 0 < dims then [.binary .push (.arrayDim dims) (.cls f.scope.classScope)] else []) [] ∧
      k f u = .ok a t := by
  rw [run_ite] at hrun
  split at hrun
  · next hpos =>
    obtain ⟨_, u, hemit, hrun⟩ := bind_eq_ok.mp hrun
    refine ⟨u, ?_, hrun⟩
    rw [if_pos hpos]
    exact adds_emitPushDims hemit
  · next hpos =>
    refine ⟨s, ?_, hrun⟩
    rw [if_neg hpos]
    exact .refl _ _

theorem recordSplitDims_ok {literals : List Segment} {written : Bool} {r : Unit}
    (hrun : recordSplitDims literals written f s = .ok r t) : t.session = s.session := by
  obtain ⟨_, _, hget, hrun⟩ := bind_eq_ok.mp hrun
  cases hget
  rw [run_ite] at hrun
  split at hrun <;> cases hrun <;> rfl

theorem lowerThis_pushes (hsingle : c.isSingle = false) (hrun : lowerThis ident c f s = .ok e t) :
    ∃ p, p.ident = ident ∧ (∀ i, p.operand ≠ some (.dynamic i)) ∧ Pushes f s t p := by
  obtain ⟨_, _, hcls, hrun⟩ := bind_eq_ok.mp hrun
  cases hcls
  rw [hsingle, run_ite, if_neg Bool.false_ne_true] at hrun
  obtain ⟨_, _, hpush, hrun⟩ := bind_eq_ok.mp hrun
  cases hrun
  exact ⟨⟨ident, [], [], 0, some .this, f.scope.classScope⟩, rfl, nofun, adds_emitPushm hpush,
    .bare rfl rfl rfl (.inl rfl)⟩

theorem lowerClassName_pushes {cls : Nat} (hsingle : c.isSingle = false)
    (hrun : lowerClassName ident c cls f s = .ok e t) :
    ∃ p, p.ident = ident ∧ (∀ i, p.operand ≠ some (.dynamic i)) ∧ Pushes f s t p := by
  unfold lowerClassName at hrun
  rw [hsingle, run_ite, if_neg Bool.false_ne_true] at hrun
  obtain ⟨_, _, hpush, hrun⟩ := bind_eq_ok.mp hrun
  cases hrun
  exact ⟨⟨ident, [], [], 0, some (.cls (some cls)), some cls⟩, rfl, nofun, adds_emitPushm hpush,
    .bare rfl rfl rfl (.inr ⟨_, rfl⟩)⟩

theorem lowerSymbol_pushes {r : SymbolRef} {x : Symbol} (hsingle : c.isSingle = false)
    (hx : s.session.symbol? r = some x) (hstatic : (x.isStatic || c.anchor.isNone) = true)
    (hrun : lowerSymbol expression ident c r f s = .ok e t) :
    ∃ p, p.ident = ident ∧ (∀ i, p.operand ≠ some (.dynamic i)) ∧ Pushes f s t p := by
  have hanchor : (if x.isStatic then none else c.anchor) = none := by
    rw [Bool.or_eq_true, Option.isNone_iff_eq_none] at hstatic
    obtain hstatic | hnone := hstatic
    · rw [if_pos hstatic]
    · rw [hnone, ite_self]
  obtain ⟨y, _, hy, hrun⟩ := bind_eq_ok.mp hrun
  rw [run_getSymbol, hx] at hy
  cases hy
  rw [hanchor] at hrun
  obtain ⟨⟨⟩, w, hdims, hrun⟩ := bind_eq_ok.mp hrun
  obtain ⟨code, late, hadds⟩ := adds_lowerDims hdims
  obtain ⟨_, _, hread, hrun⟩ := bind_eq_ok.mp hrun
  cases hread
  obtain ⟨_, w', hrecord, hrun⟩ := bind_eq_ok.mp hrun
  dsimp only at hrun
  rw [hsingle, if_neg Bool.false_ne_true] at hrun
  obtain ⟨_, hcount, hrun⟩ := pushDims_ok hrun
  rw [recordSplitDims_ok hrecord] at hcount
  obtain ⟨_, _, hpush, hrun⟩ := bind_eq_ok.mp hrun
  cases hrun
  have hpushed := (hadds.trans hcount).trans (adds_emitPushm hpush)
  rw [List.append_nil, List.append_nil] at hpushed
  refine ⟨⟨ident, code, late, ident.dims.length, some (.ofSymbol x), x.classScope⟩, rfl, fun i hi => ?_, hpushed,
    .subscripted rfl (.refl _) rfl hdims hadds.late hadds.toAppends rfl⟩
  exact Operand.ofSymbol_ne_dynamic x i (Option.some.inj hi)

/-- A name that is resolved statically is pushed as what it stands for. -/
theorem lowerIdentifier_pushes (hsingle : c.isSingle = false)
    (hstep : (sightFrom f s.session).stepName? c ident = some d)
    (hrun : lowerIdentifier expression ident c f s = .ok e t) :
    ∃ p, p.ident = ident ∧ (∀ i, p.operand ≠ some (.dynamic i)) ∧ Pushes f s t p := by
  unfold Sight.stepName? at hstep
  unfold lowerIdentifier at hrun
  split at hstep
  · next hthis =>
    rw [if_pos hthis] at hrun
    exact lowerThis_pushes hsingle hrun
  · next hthis =>
    rw [if_neg hthis] at hrun
    replace hrun := sight_bind_ok hrun
    split at hstep
    · next r hr =>
      rw [hr] at hrun
      split at hstep
      · cases hstep
      · next x hx =>
        split at hstep
        · next hstatic => exact lowerSymbol_pushes hsingle hx hstatic hrun
        · cases hstep
    · next cls hcls =>
      rw [hcls] at hrun
      exact lowerClassName_pushes hsingle hrun
    · cases hstep

end Lowering

end Diglot
