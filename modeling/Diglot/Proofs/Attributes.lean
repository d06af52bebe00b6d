import Diglot.Lowering.Attribute
import Diglot.Proofs.Chains.Beside
import Diglot.Proofs.Chains.Silent
import Diglot.Proofs.Depth
import Mathlib.Data.List.Forall2

/-! # Attributes are kept with constant arguments

An attribute is kept if its class exists, its arguments are constant and the class has a constructor for them.
Arguments that are constant are built from literals alone, so that no name, no block and no statement around them
matters when they are lowered.

* `Session.put`: the session after instructions were emitted and diagnostics were recorded, and nothing else.
* `Fixed x m`: wherever the setting `x` holds, `m` returns the same, and puts the same instructions and diagnostics.
* `Fixed.expression`: a constant expression without a dot is fixed.
* `lowerAttributes_keeps`: which attributes are kept, what is reported of the others, and what arguments do.
-/

set_option autoImplicit false

namespace Diglot

open Lowering

/-! ## What is put into a session -/

namespace Session

/-- Instructions with their spans go to the end of a block. -/
def emitAll (s : Session) (block : Nat) (code : List (Instruction × Span)) : Session :=
  code.foldl (fun s x => s.emit block x.1 x.2) s

/-- The session after diagnostics were recorded and instructions were emitted. -/
def put (s : Session) (block : Nat) (code : List (Instruction × Span)) (warnings : Diagnostics) : Session :=
  { s with diagnostics := s.diagnostics ++ warnings }.emitAll block code

variable {s t : Session} {block : Nat}

theorem emit_withDiagnostics (s : Session) (block : Nat) (i : Instruction) (span : Span) (ds : Diagnostics) :
    { s.emit block i span with diagnostics := ds } = { s with diagnostics := ds }.emit block i span := by
  unfold emit
  split
  · rfl
  · rfl

/-- Emitting keeps all but code, and the diagnostics do not matter to it. -/
theorem emitAll_withDiagnostics (s : Session) (block : Nat) (code : List (Instruction × Span)) (ds : Diagnostics) :
    { s.emitAll block code with diagnostics := ds } = { s with diagnostics := ds }.emitAll block code := by
  induction code generalizing s with
  | nil => rfl
  | cons x rest ih =>
    change { (s.emit block x.1 x.2).emitAll block rest with diagnostics := ds } = _
    rw [ih, emit_withDiagnostics]
    rfl

theorem emitAll_eq (s : Session) (block : Nat) (code : List (Instruction × Span)) :
    ∃ debugMap blocks watch, s.emitAll block code = { s with debugMap, blocks, watch } := by
  induction code generalizing s with
  | nil => exact ⟨s.debugMap, s.blocks, s.watch, rfl⟩
  | cons x rest ih =>
    obtain ⟨debugMap, blocks, watch, hx⟩ := s.emit_eq block x.1 x.2
    obtain ⟨debugMap', blocks', watch', hrest⟩ := ih (s.emit block x.1 x.2)
    refine ⟨debugMap', blocks', watch', ?_⟩
    change (s.emit block x.1 x.2).emitAll block rest = _
    rw [hrest, hx]

theorem sameNames_emitAll (s : Session) (block : Nat) (code : List (Instruction × Span)) :
    s.SameNames (s.emitAll block code) := by
  induction code generalizing s with
  | nil => exact .refl s
  | cons x rest ih => exact (s.sameNames_emit block x.1 x.2).trans (ih _)

theorem sameNames_put (s : Session) (block : Nat) (code : List (Instruction × Span)) (warnings : Diagnostics) :
    s.SameNames (s.put block code warnings) := by
  have hdiagnostics : s.SameNames { s with diagnostics := s.diagnostics ++ warnings } :=
    ⟨rfl, rfl, rfl, rfl, rfl, rfl⟩
  exact hdiagnostics.trans (sameNames_emitAll _ block code)

theorem put_eq (s : Session) (block : Nat) (code : List (Instruction × Span)) (warnings : Diagnostics) :
    ∃ debugMap blocks watch,
      s.put block code warnings = { s with debugMap, blocks, watch, diagnostics := s.diagnostics ++ warnings } :=
  emitAll_eq _ block code

theorem put_put (s : Session) (block : Nat) (code rest : List (Instruction × Span)) (warnings more : Diagnostics) :
    (s.put block code warnings).put block rest more = s.put block (code ++ rest) (warnings ++ more) := by
  obtain ⟨debugMap, blocks, watch, hput⟩ := s.put_eq block code warnings
  have hdiagnostics : (s.put block code warnings).diagnostics = s.diagnostics ++ warnings := by rw [hput]
  unfold put at hdiagnostics ⊢
  rw [emitAll_withDiagnostics, hdiagnostics, Array.append_assoc]
  exact (List.foldl_append ..).symm

theorem erase_emitAll (s : Session) (block : Nat) (code : List (Instruction × Span)) :
    (s.emitAll block code).erase = s.erase.emitAll block (code.map fun x => (x.1.erase, x.2)) := by
  induction code generalizing s with
  | nil => rfl
  | cons x rest ih =>
    change ((s.emit block x.1 x.2).emitAll block rest).erase = _
    rw [ih, erase_emit]
    rfl

/-- What only a debugger needs does not matter to what is put. -/
theorem erase_put_congr (h : s.erase = t.erase) (block : Nat) (code : List (Instruction × Span))
    (warnings : Diagnostics) : (s.put block code warnings).erase = (t.put block code warnings).erase := by
  have hwarned : ({ s with diagnostics := s.diagnostics ++ warnings } : Session).erase =
      ({ t with diagnostics := t.diagnostics ++ warnings } : Session).erase :=
    congrArg (fun u : Session => { u with diagnostics := u.diagnostics ++ warnings }) h
  unfold put
  rw [erase_emitAll, erase_emitAll, hwarned]

end Session

namespace Lowering

variable {α β : Type} {f : Frame} {s t : State}

/-- All of a session and its frame that a constant expression depends on. -/
structure Setting where
  enforces : Bool
  file : Option String
  cls : Option Nat

/-- The frame is not within call arguments, and the setting is that of frame and session. -/
structure Setting.Holds (x : Setting) (f : Frame) (s : Session) : Prop where
  notGuided : f.isGuided = false
  cls : f.scope.classScope = x.cls
  enforces : s.options.enforceTypeCheck = x.enforces
  file : s.file = x.file
  canEmit : s.CanEmit f.block

variable {x : Setting}

theorem Setting.Holds.put (h : x.Holds f s.session) {code : List (Instruction × Span)} {warnings : Diagnostics}
    (ht : t.session.erase = (s.session.put f.block code warnings).erase) : x.Holds f t.session := by
  obtain ⟨debugMap, blocks, watch, hput⟩ := s.session.put_eq f.block code warnings
  have henforces : t.session.erase.options.enforceTypeCheck =
      (s.session.put f.block code warnings).erase.options.enforceTypeCheck := by rw [ht]
  have hfile : t.session.erase.file = (s.session.put f.block code warnings).erase.file := by rw [ht]
  rw [hput] at henforces hfile
  refine ⟨h.notGuided, h.cls, henforces.trans h.enforces, hfile.trans h.file, ?_⟩
  rw [← Session.canEmit_erase, ht, Session.canEmit_erase]
  have hnames := s.session.sameNames_put f.block code warnings
  have hcan := h.canEmit
  unfold Session.CanEmit at hcan ⊢
  rwa [hnames.isWatching, hnames.block?_isSome]

/-! ## Steps that are fixed by their setting -/

/-- Wherever the setting holds, the step finishes with a value that satisfies `P`, and all that it does is to put
these instructions and diagnostics. -/
def Contributes (x : Setting) (P : α → Prop) (code : List (Instruction × Span)) (warnings : Diagnostics)
    (m : Lower α) : Prop :=
  ∀ f s, x.Holds f s.session → ∃ a t, m f s = .ok a t ∧ P a ∧
    t.erase = ({ s with session := s.session.put f.block code warnings } : State).erase

/-- Wherever the setting holds, the step returns some value that satisfies `P`, and does the same. -/
def Regular (x : Setting) (P : α → Prop) (m : Lower α) : Prop := ∃ code warnings, Contributes x P code warnings m

/-- Wherever the setting holds, the step returns the same and does the same. -/
def Fixed (x : Setting) (m : Lower α) : Prop := ∃ a, Regular x (· = a) m

namespace Regular

variable {P : α → Prop} {R : β → Prop} {m : Lower α} {k : α → Lower β}

theorem pure {a : α} (h : P a) : Regular x P (Pure.pure a : Lower α) := by
  refine ⟨[], #[], fun f s _ => ⟨a, s, rfl, h, ?_⟩⟩
  simp [Session.put, Session.emitAll]

/-- A value that is not known decides nothing. -/
theorem bind (hm : Regular x P m) (hk : ∃ code warnings, ∀ a, P a → Contributes x R code warnings (k a)) :
    Regular x R (m >>= k) := by
  obtain ⟨code, warnings, hm⟩ := hm
  obtain ⟨rest, more, hk⟩ := hk
  refine ⟨code ++ rest, warnings ++ more, fun f s hs => ?_⟩
  obtain ⟨a, t, hrun, ha, ht⟩ := hm f s hs
  have hsession := congrArg State.session ht
  obtain ⟨b, u, hrun', hb, hu⟩ := hk a ha f t (hs.put hsession)
  refine ⟨b, u, bind_eq_ok.mpr ⟨a, t, hrun, hrun'⟩, hb, ?_⟩
  have hput := Session.erase_put_congr hsession f.block rest more
  rw [Session.put_put] at hput
  rw [hu]
  have hrest := congrArg (fun v : State => { v with session := (s.session.put f.block (code ++ rest)
    (warnings ++ more)).erase }) ht
  unfold State.erase at hrest ⊢
  rw [hput]
  exact hrest

theorem withReader {g : Frame → Frame} (hg : ∀ f s, x.Holds f s → x.Holds (g f) s)
    (hblock : ∀ f, (g f).block = f.block) (hm : Regular x P m) :
    Regular x P (MonadWithReader.withReader g m : Lower α) := by
  obtain ⟨code, warnings, hm⟩ := hm
  refine ⟨code, warnings, fun f s hs => ?_⟩
  obtain ⟨a, t, hrun, ha, ht⟩ := hm (g f) s (hg f _ hs)
  rw [hblock] at ht
  exact ⟨a, t, hrun, ha, ht⟩

/-- An instruction that depends on the class around it only. -/
theorem emits {m : Lower Nat} (i : Instruction) (span : Span)
    (hm : ∀ f s, f.scope.classScope = x.cls → ∃ debug, m f s = emitWith i span debug f s) :
    Regular x (fun _ => True) m := by
  refine ⟨[(i, span)], #[], fun f s hs => ?_⟩
  obtain ⟨debug, hrun⟩ := hm f s hs.cls
  refine ⟨_, _, hrun.trans (run_emitWith i span debug f s hs.canEmit), trivial, ?_⟩
  have hput : s.session.put f.block [(i, span)] #[] = s.session.emit f.block i span := by
    simp [Session.put, Session.emitAll]
  unfold State.erase
  rw [hput]
  dsimp only
  rw [Session.erase_emit, Session.erase_noteEmission, Session.erase_emit]
  rfl

theorem emitPush (operand : Operand) (dims : Nat) (span : Span) :
    Regular x (fun _ => True) (emitPush operand dims span) := by
  refine emits (.ternary .push operand (.cls x.cls) (.arrayDim dims)) span fun f s hcls => ?_
  rw [← hcls]
  exact Mild.emits_emitStepping _ _ [] f s

theorem emitPop (operand : Operand) (cls : Option Nat) (span : Span) :
    Regular x (fun _ => True) (emitPop operand cls span) :=
  emits _ span fun f s _ => Mild.emits_emitStepping _ _ [] f s

theorem emit (i : Instruction) (span : Span) : Regular x (fun _ => True) (emit i span) :=
  emits i span fun f s _ => Mild.emits_emitStepping _ _ [] f s

theorem emitAlloca (count : Nat) (isString : Bool) : Regular x (fun _ => True) (emitAlloca count isString) :=
  emits _ .nil fun f s _ => Mild.emits_emitWith _ _ none f s

theorem emitPushIndex (operand : Operand) : Regular x (fun _ => True) (emitPushIndex operand) :=
  emits _ .nil fun f s _ => Mild.emits_emitWith _ _ none f s

theorem report (issue : Issue) (message : String) (span : Span) :
    Regular x (fun _ => True) (report issue message span) := by
  refine ⟨[], #[{ issue, message, file := x.file, line := span.line, column := span.column }], fun f s hs => ?_⟩
  refine ⟨(), _, rfl, trivial, ?_⟩
  rw [← hs.file]
  simp [Session.put, Session.emitAll, State.erase, Session.erase, Session.report, Session.note, Session.diagnostic]

end Regular

namespace Fixed

variable {m : Lower α} {n : Lower β} {k : α → Lower β}

theorem pure (a : α) : Fixed x (Pure.pure a : Lower α) := ⟨a, .pure rfl⟩

theorem bind (hm : Fixed x m) (hk : ∀ a, Fixed x (k a)) : Fixed x (m >>= k) := by
  obtain ⟨a, hm⟩ := hm
  obtain ⟨b, code, warnings, hk⟩ := hk a
  refine ⟨b, hm.bind ⟨code, warnings, ?_⟩⟩
  rintro _ rfl
  exact hk

/-- A step whose value does not matter. -/
theorem after (hm : Regular x (fun _ => True) m) (hn : Fixed x n) : Fixed x (m >>= fun _ => n) := by
  obtain ⟨b, code, warnings, hn⟩ := hn
  exact ⟨b, hm.bind ⟨code, warnings, fun _ _ => hn⟩⟩

theorem forM {l : List α} {k : α → Lower Unit} (h : ∀ a ∈ l, Fixed x (k a)) : Fixed x (l.forM k) := by
  induction l with
  | nil => exact pure ()
  | cons a rest ih =>
    exact bind (h a (List.mem_cons_self ..)) fun _ => ih fun b hb => h b (List.mem_cons_of_mem a hb)

/-- A step that does the same as a fixed one wherever the setting holds. -/
theorem congr {m n : Lower α} (hn : Fixed x n) (hm : ∀ f s, x.Holds f s.session → m f s = n f s) : Fixed x m := by
  obtain ⟨a, code, warnings, hn⟩ := hn
  refine ⟨a, code, warnings, fun f s hs => ?_⟩
  rw [hm f s hs]
  exact hn f s hs

theorem ite {c : Prop} [Decidable c] {m n : Lower α} (hm : Fixed x m) (hn : Fixed x n) :
    Fixed x (if c then m else n) := by
  split
  · exact hm
  · exact hn

theorem classScope : Fixed x classScope := 
  congr (pure x.cls) fun f s hs => by rw [run_classScope, hs.cls, run_pure]

theorem unguided (hm : Fixed x m) : Fixed x (unguided m) := by
  obtain ⟨a, hm⟩ := hm
  exact ⟨a, hm.withReader (fun f s hs => ⟨rfl, hs.cls, hs.enforces, hs.file, hs.canEmit⟩) fun _ => rfl⟩

theorem guidesWanted : Fixed x guidesWanted := by
  refine congr (pure false) fun f s hs => ?_
  simp [Lowering.guidesWanted, hs.notGuided]

/-! ## Constant expressions -/

theorem literalOperand {kind : LiteralKind} (hkind : kind ≠ .string) (source : String) (span : Span) :
    Fixed x (literalOperand kind source span) := by
  unfold Lowering.literalOperand
  cases hread : readLiteral? kind source with
  | none => cases kind <;> simp_all [readLiteral?]
  | some r =>
    cases hfault : r.fault with
    | none =>
      simp only [hfault]
      exact pure r.operand
    | some fault =>
      simp only [hfault]
      exact after (.report _ _ _) (pure r.operand)

theorem lowerString (source : String) (span : Span) : Fixed x (lowerString source span) :=
  bind (forM fun _ _ => after (.emitPush _ _ _) (pure ())) fun _ => after (.emitAlloca _ _) (pure ())

theorem lowerLiteral (kind : LiteralKind) (source : String) (span : Span) (expected : Ty) :
    Fixed x (lowerLiteral kind source span expected) := by
  let type (o : Options) : Ty := if kind = .null then .null else literalType o (literalPrimitive kind) expected
  have htype {f : Frame} {s : State} (hs : x.Holds f s.session) :
      type s.session.options = type { enforceTypeCheck := x.enforces } := by
    simp only [type, literalType, hs.enforces]
  have hindexed {n : Lower Ty} (hn : Fixed x n) : Fixed x (Lowering.guidesWanted >>= fun on =>
      if on = true then emitPushIndex (.guideCount 0) >>= fun _ => n else n) :=
    bind guidesWanted fun on => ite (after (.emitPushIndex _) hn) hn
  have hstring : Fixed x
      (Lowering.lowerString source span >>= fun _ => Pure.pure (type { enforceTypeCheck := x.enforces })) :=
    bind (lowerString source span) fun _ => pure _
  have hvalue (hkind : kind ≠ .string) : Fixed x
      (Lowering.literalOperand kind source span >>= fun operand => emitPush operand 0 span >>= fun _ =>
        Pure.pure (type { enforceTypeCheck := x.enforces })) :=
    bind (literalOperand hkind source span) fun operand => after (.emitPush _ _ _) (pure _)
  cases kind with
  | string =>
    refine congr (hindexed hstring) fun f s hs => ?_
    rw [← htype hs]
    rfl
  | _ =>
    refine congr (hindexed (hvalue nofun)) fun f s hs => ?_
    rw [← htype hs]
    rfl

theorem emitGuides (guides : List Guide) : Fixed x (emitGuides guides) :=
  bind (forM fun _ _ => after (.emitPush _ _ _) (pure ())) fun _ => after (.emitPushIndex _) (pure ())

section
variable {part : LowerPart}

theorem lowerItems {items : List Node} (hparts : ∀ n ∈ items, Fixed x (part n)) (common : Option Ty) :
    Fixed x (lowerItems part common items) := by
  induction items generalizing common with
  | nil => exact pure common
  | cons item rest ih =>
    have hrest (type : Ty) := ih (fun n hn => hparts n (List.mem_cons_of_mem item hn)) (some (commonType common type))
    cases item with
    | literal kind source span => exact bind (lowerLiteral kind source span _) hrest
    | _ => exact bind (hparts _ (List.mem_cons_self ..)) hrest

theorem lowerList {items : List Node} (hparts : ∀ n ∈ items, Fixed x (part n)) (guides : List Guide) :
    Fixed x (lowerList part items [] guides) := by
  refine bind (unguided (lowerItems hparts none)) fun common => after (.emitAlloca _ _) (bind (pure ()) fun _ => ?_)
  exact bind guidesWanted fun on => ite (bind (emitGuides guides) fun _ => pure _) (pure _)

theorem lowerRange {first last : Node} {step : Option Node} (hfirst : Fixed x (part first))
    (hlast : Fixed x (part last)) (hstep : ∀ n, step = some n → Fixed x (part n)) (span : Span) :
    Fixed x (lowerRange part first last step span) := by
  have hend : Fixed x (do
      let _ ← emit (.bare .range) span
      return ⟨some Primitive.var.uid, 1⟩ : Lower Ty) := after (.emit _ _) (pure _)
  refine bind hfirst fun _ => bind hlast fun _ => ?_
  cases step with
  | none => exact after (.emitPush _ _ _) hend
  | some step => exact bind (hstep step rfl) fun _ => hend

theorem lowerUnary {operand : Node} (hoperand : Fixed x (part operand)) (op : UnaryOperator) (span : Span) :
    Fixed x (lowerUnary part op operand span) := by
  refine bind hoperand fun type => bind classScope fun cls => after (.emitPop _ _ _) (after (.emit _ _) ?_)
  exact after (.emitPush _ _ _) (pure _)

theorem lowerBinary {left right : Node} (hleft : Fixed x (part left)) (hright : Fixed x (part right)) {op : Operator}
    (hop : op ≠ .dot) (span : Span) : Fixed x (lowerBinary part left op right span) := by
  unfold Lowering.lowerBinary
  cases hopcode : OpCode.ofBinary? op with
  | none => cases op <;> simp [OpCode.ofBinary?] at hopcode hop
  | some opcode =>
    refine bind hleft fun _ => bind hright fun _ => bind classScope fun cls => after (.emitPop _ _ _) ?_
    exact after (.emitPop _ _ _) (after (.emit _ _) (after (.emitPush _ _ _) (pure _)))

theorem lowerGroup {inner : Node} (hinner : Fixed x (part inner)) (guides : List Guide) :
    Fixed x (lowerGroup part inner [] guides) :=
  bind hinner fun _ => bind (pure ()) fun _ => pure _

end

end Fixed

end Lowering

mutual

/-- No operator of the expression is a dot. -/
def Node.isDotless : Node → Bool
  | .list items _ _ _ => Node.areDotless items
  | .group inner _ _ _ => inner.isDotless
  | .unary _ operand _ => operand.isDotless
  | .binary left op right _ => op != .dot && left.isDotless && right.isDotless
  | .range first last step _ => first.isDotless && last.isDotless && Node.isDotless? step
  | _ => true

/-- No operator of the expressions is a dot. -/
def Node.areDotless : List Node → Bool
  | [] => true
  | n :: rest => n.isDotless && Node.areDotless rest

/-- No operator of the part is a dot, if it is there. -/
def Node.isDotless? : Option Node → Bool
  | none => true
  | some n => n.isDotless

end

theorem Node.areConstant_iff {l : List Node} : Node.areConstant l = true ↔ ∀ n ∈ l, n.isConstant = true := by
  induction l with
  | nil => simp [Node.areConstant]
  | cons n rest ih => simp [Node.areConstant, ih]

theorem Node.areDotless_iff {l : List Node} : Node.areDotless l = true ↔ ∀ n ∈ l, n.isDotless = true := by
  induction l with
  | nil => simp [Node.areDotless]
  | cons n rest ih => simp [Node.areDotless, ih]

namespace Lowering

variable {x : Setting}

/-- A constant expression without a dot does the same wherever the setting is the same. -/
theorem Fixed.expression {n : Node} (hconstant : n.isConstant = true) (hdotless : n.isDotless = true) :
    Fixed x (expression n) := by
  induction hw : n.weight using Nat.strongRecOn generalizing n with
  | ind w ih =>
    have hpart {m : Node} (hlt : m.weight < n.weight) (hm : m.isConstant = true) (hm' : m.isDotless = true) :
        Fixed x (Lowering.expression m) := ih m.weight (hw ▸ hlt) hm hm' rfl
    rw [expression_eq]
    cases n with
    | literal kind source span => exact lowerLiteral kind source span _
    | list items dims guides span =>
      obtain ⟨hdims, hitems⟩ : dims = [] ∧ ∀ m ∈ items, m.isConstant = true := by
        simpa [Node.isConstant, Node.areConstant_iff] using hconstant
      subst hdims
      have hitems' := Node.areDotless_iff.mp hdotless
      refine lowerList (fun m hm => hpart ?_ (hitems m hm) (hitems' m hm)) guides
      have hle := Node.weight_le_weights hm
      simp only [Node.weight]
      omega
    | range first last step span =>
      simp only [Node.isConstant, Node.isDotless, Bool.and_eq_true] at hconstant hdotless
      obtain ⟨⟨hfirst, hlast⟩, hstep⟩ := hconstant
      obtain ⟨⟨hfirst', hlast'⟩, hstep'⟩ := hdotless
      simp only [Node.weight] at hpart
      refine lowerRange (hpart (by omega) hfirst hfirst') (hpart (by omega) hlast hlast') ?_ span
      rintro m rfl
      exact hpart (by simp only [Node.optWeight]; omega) hstep hstep'
    | unary op operand span =>
      have hlt : operand.weight < (Node.unary op operand span).weight := Nat.lt_succ_self _
      exact lowerUnary (hpart hlt hconstant hdotless) op span
    | binary left op right span =>
      simp only [Node.isConstant, Node.isDotless, Bool.and_eq_true, bne_iff_ne] at hconstant hdotless
      obtain ⟨hleft, hright⟩ := hconstant
      obtain ⟨⟨hop, hleft'⟩, hright'⟩ := hdotless
      simp only [Node.weight] at hpart
      exact lowerBinary (hpart (by omega) hleft hleft') (hpart (by omega) hright hright') hop span
    | group inner dims guides span =>
      obtain ⟨hdims, hinner⟩ : dims = [] ∧ inner.isConstant = true := by simpa [Node.isConstant] using hconstant
      subst hdims
      have hlt : inner.weight < (Node.group inner [] guides span).weight := Nat.lt_succ_self _
      exact lowerGroup (hpart hlt hinner hdotless) guides
    | _ => cases hconstant

/-! ## Attributes -/

/-- The class of an attribute that can be kept: it exists, has a constructor for as many arguments, and these are all
constant. -/
def validClass? (classes : ClassTable) (a : Call) : Option Nat :=
  (classes.indexOf? (a.name ++ "Attribute")).filter fun cls =>
    a.args.all Node.isConstant && (classes.get? cls).any fun c =>
      c.procedures.toList.any fun p => p.isConstructor && p.accepts a.args.length

/-- The diagnostic of an attribute that cannot be kept is an error, and the session tells the file. -/
def IsFaultOf (s : Session) (a : Call) (d : Diagnostic) : Prop :=
  d.severity = .error ∧ ∃ issue message span,
    checkAttribute s.classes a = .error (issue, message, span) ∧ d = s.diagnostic issue message span

theorem isSome_anyConstructor? (t : ProcedureTable) (arity : Nat) :
    (t.anyConstructor? arity).isSome = t.toList.any fun p => p.isConstructor && p.accepts arity := by
  unfold ProcedureTable.anyConstructor?
  rw [Option.isSome_map, List.isSome_find?]

/-- An attribute is kept with its class and arguments if it is valid, and otherwise there is an error. -/
theorem checkAttribute_cases (classes : ClassTable) (a : Call) :
    (∃ cls, validClass? classes a = some cls ∧ checkAttribute classes a = .ok ⟨cls, a.args⟩) ∨
      validClass? classes a = none ∧ ∃ issue message span,
        checkAttribute classes a = .error (issue, message, span) ∧ issue.severity = .error := by
  unfold checkAttribute validClass? attributeClass
  cases classes.indexOf? (a.name ++ "Attribute") with
  | none => exact .inr ⟨rfl, _, _, _, rfl, rfl⟩
  | some cls =>
    dsimp only
    rw [Option.filter_some]
    cases hfind : a.args.find? fun arg => !arg.isConstant with
    | some arg =>
      have hall : a.args.all Node.isConstant = false := by
        rw [List.all_eq_false]
        exact ⟨arg, List.mem_of_find?_eq_some hfind, by simpa using List.find?_some hfind⟩
      refine .inr ⟨?_, _, _, _, rfl, rfl⟩
      rw [hall, Bool.false_and, if_neg Bool.false_ne_true]
    | none =>
      have hall : a.args.all Node.isConstant = true := by
        simpa using hfind
      have hconstructor : ((classes.get? cls).bind fun c => c.procedures.anyConstructor? a.args.length).isSome =
          (classes.get? cls).any fun c =>
            c.procedures.toList.any fun p => p.isConstructor && p.accepts a.args.length := by
        cases classes.get? cls with
        | none => rfl
        | some c => exact isSome_anyConstructor? c.procedures _
      rw [hall, Bool.true_and, hconstructor]
      dsimp only
      split
      · exact .inl ⟨cls, rfl, rfl⟩
      · exact .inr ⟨rfl, _, _, _, rfl, rfl⟩

/-- The attributes that are valid are kept in order, and one error is reported of each other one, in order. -/
theorem lowerAttributes_run (f : Frame) (s : State) (attributes : List Call) :
    ∃ faults, lowerAttributes attributes f s =
        .ok (attributes.filterMap fun a => (validClass? s.session.classes a).map fun cls => ⟨cls, a.args⟩)
          { s with session := faults.foldl Session.report s.session } ∧
      List.Forall₂ (IsFaultOf s.session)
        (attributes.filter fun a => (validClass? s.session.classes a).isNone) faults := by
  induction attributes generalizing s with
  | nil => exact ⟨[], rfl, .nil⟩
  | cons a rest ih =>
    obtain ⟨cls, hvalid, hcheck⟩ | ⟨hvalid, issue, message, span, hcheck, herror⟩ :=
      checkAttribute_cases s.session.classes a
    · obtain ⟨faults, hrun, hfaults⟩ := ih s
      refine ⟨faults, ?_, ?_⟩
      · simp only [lowerAttributes, run_bind, run_getSession, hcheck, hrun, run_pure, List.filterMap_cons, hvalid,
          Option.map_some]
      · simpa [hvalid] using hfaults
    · let d := s.session.diagnostic issue message span
      obtain ⟨faults, hrun, hfaults⟩ := ih { s with session := s.session.report d }
      refine ⟨d :: faults, ?_, ?_⟩
      · simp only [lowerAttributes, run_bind, run_getSession, hcheck, run_report, List.filterMap_cons, hvalid,
          Option.map_none]
        exact hrun
      · have hfirst : IsFaultOf s.session a d := ⟨herror, issue, message, span, hcheck, rfl⟩
        simp only [List.filter_cons, hvalid, Option.isNone_none, if_true]
        exact .cons hfirst hfaults

/-- Which attributes are kept, and what becomes of them. Attributes are lowered to the end; those whose class exists,
whose arguments are constant and whose class has a constructor for as many arguments are kept in order. Of each other
one an error is reported, in order, and nothing else is done. An argument of one that is kept depends on next to
nothing, unless there is a dot in it: outside call arguments it is lowered to the end, with the same type, the same
instructions and the same diagnostics wherever the file, the class around and the enforcement of types are the same.
But for what only a debugger needs, those instructions and diagnostics are all that it adds to the state. -/
theorem lowerAttributes_keeps (f : Frame) (s : State) (attributes : List Call) :
    ∃ kept faults,
      lowerAttributes attributes f s = .ok kept { s with session := faults.foldl Session.report s.session } ∧
      kept = (attributes.filterMap fun a =>
        (validClass? s.session.classes a).map fun cls => ⟨cls, a.args⟩) ∧
      List.Forall₂ (IsFaultOf s.session)
        (attributes.filter fun a => (validClass? s.session.classes a).isNone) faults ∧
      ∀ k ∈ kept, ∀ e ∈ k.args, e.isDotless = true → ∀ x : Setting, ∃ type code warnings,
        ∀ (g : Frame) (t : State), x.Holds g t.session → ∃ u, expression e g t = .ok type u ∧
          u.erase = ({ t with session := t.session.put g.block code warnings } : State).erase ∧
          t.session.SameNames u.session ∧ u.session.lateVariables = t.session.lateVariables ∧
          u.session.lateFunctions = t.session.lateFunctions ∧ u.node = t.node := by
  obtain ⟨faults, hrun, hfaults⟩ := lowerAttributes_run f s attributes
  refine ⟨_, faults, hrun, rfl, hfaults, fun k hk e he hdotless x => ?_⟩
  obtain ⟨a, -, hk⟩ := List.mem_filterMap.mp hk
  obtain ⟨cls, hvalid, rfl⟩ := Option.map_eq_some_iff.mp hk
  obtain ⟨-, hholds⟩ := Option.filter_eq_some_iff.mp hvalid
  have hconstant : e.isConstant = true := List.all_eq_true.mp (Bool.and_eq_true_iff.mp hholds).1 e he
  obtain ⟨type, code, warnings, hfixed⟩ := Fixed.expression (x := x) hconstant hdotless
  refine ⟨type, code, warnings, fun g t ht => ?_⟩
  obtain ⟨_, u, hrun', rfl, hu⟩ := hfixed g t ht
  have hsession : u.session.erase = (t.session.put g.block code warnings).erase := congrArg State.session hu
  have hnames : t.session.SameNames u.session.erase := by
    rw [hsession]
    exact (t.session.sameNames_put _ _ _).trans (Session.sameNames_erase _)
  have hnode : u.erase.node = t.node := by rw [hu, State.erase]
  obtain ⟨debugMap, blocks, watch, hput⟩ := t.session.put_eq g.block code warnings
  have hvariables : u.session.erase.lateVariables = t.session.lateVariables := by
    rw [hsession, hput]
    rfl
  have hfunctions : u.session.erase.lateFunctions = t.session.lateFunctions := by
    rw [hsession, hput]
    rfl
  exact ⟨u, hrun', hu, hnames.trans u.session.sameNames_erase.symm, hvariables, hfunctions, hnode⟩

/-- A session with a class for attributes that take one argument. -/
def tagState : State :=
  let maker : Function :=
    { name := "TagAttribute", params := [⟨"x", .var, none, .nil⟩], returns := .var, body := [], attributes := []
      isStatic := false, isConstructor := true, access := .isPublic, span := .nil }
  let tag : ClassDecl :=
    { name := "TagAttribute", base := none, members := [], methods := [maker], attributes := [], span := .nil }
  { session := ((Session.new {}).compile [.classDecl tag] .associative).2 }

/-- The attribute with the sum of two numbers is kept, those with a name and of an unknown class are not. -/
theorem tags_kept :
    let tag (name : String) (e : Node) : Call := { name, args := [e], dims := [], guides := [], span := .nil }
    let sum : Node := .binary (.literal .int "1" .nil) .add (.literal .int "2" .nil) .nil
    let frame : Frame := { block := 0, scope := .global, dialect := .associative }
    let attributes := [tag "Tag" sum, tag "Tag" (.identifier (.plain "n" .nil)), tag "Note" sum]
    ∃ (faults : List Diagnostic) (type : Ty) (u : State),
      lowerAttributes attributes frame tagState =
        .ok [⟨12, [sum]⟩] { tagState with session := faults.foldl Session.report tagState.session } ∧
      faults.length = 2 ∧ expression sum frame tagState = .ok type u := by
  intro tag sum frame attributes
  obtain ⟨kept, faults, hrun, hkept, hfaults, hfixed⟩ := lowerAttributes_keeps frame tagState attributes
  have hclasses : attributes.map (validClass? tagState.session.classes) = [some 12, none, none] := by decide +kernel
  simp only [attributes, List.map_cons, List.map_nil, List.cons.injEq, and_true] at hclasses
  obtain ⟨hsum, hname, hnote⟩ := hclasses
  simp only [attributes, List.filterMap_cons, hsum, hname, hnote, Option.map_some, Option.map_none,
    List.filterMap_nil] at hkept
  have hcount : faults.length = 2 := by
    simpa [attributes, hsum, hname, hnote] using hfaults.length_eq.symm
  subst hkept
  obtain ⟨type, code, warnings, hany⟩ := hfixed _ (List.mem_singleton_self _) sum (List.mem_singleton_self _)
    (by decide) ⟨false, none, none⟩
  have hholds : (⟨false, none, none⟩ : Setting).Holds frame tagState.session :=
    ⟨rfl, rfl, by decide +kernel, by decide +kernel, .inr (by decide +kernel)⟩
  obtain ⟨u, hexpression, -⟩ := hany frame tagState hholds
  exact ⟨faults, type, u, hrun, hcount, hexpression⟩

end Lowering

end Diglot
