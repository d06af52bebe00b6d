import Diglot.Proofs.Split.Outcome
import Diglot.Proofs.Split.Sound

/-! # Where an expression halts

A sound expression never halts. An orderly one always halts at the same issue, or never: whether a part
of it is lowered does not depend on what the names in it stand for, and neither does the order.
-/

set_option autoImplicit false

namespace Diglot.Lowering

open Diglot

/-- At the root of a chain every call is lowered. -/
theorem Sight.callTarget_start (v : Sight) (name : String) (arity : Nat) (isSingle : Bool) :
    (∃ r, v.callTarget name arity (.start isSingle) = .procedure r) ∨
      v.callTarget name arity (.start isSingle) = .unresolved := by
  show (∃ r, v.rootCall name arity = .procedure r) ∨ v.rootCall name arity = .unresolved
  unfold Sight.rootCall
  dsimp only
  split
  · exact .inl ⟨_, rfl⟩
  · split
    · exact .inl ⟨_, rfl⟩
    · split
      · exact .inr rfl
      · split
        · exact .inl ⟨_, rfl⟩
        · exact .inr rfl

theorem accessedProperty?_start (v : Sight) (call : Call) (isSingle : Bool) :
    accessedProperty? v call (.start isSingle) = none := by
  unfold accessedProperty?
  split
  · rfl
  · simp [Cursor.start]

theorem chainSegments_ok {n : Node} {segments : List Node} (h : n.segments = .ok segments) :
    chainSegments n = pure segments := by
  unfold chainSegments
  rw [h]

namespace Outcome

variable {o p q : Option Issue} {part : LowerPart}

/-! ## Late-bound names -/

theorem registerLateVariable (name : String) (c : Cursor) :
    Outcome (registerLateVariable name c) none := by
  have hnew (s : Session) : Outcome (openLateVariable name c s) none :=
    andThen read fun _ => andThen (modifySession _) fun _ => pure _
  refine andThen getSession fun s => ?_
  cases c.lateEntry with
  | none => exact hnew s
  | some i => exact ite (andThen (modifySession _) fun _ => pure _) (hnew s)

theorem registerLateFunction (name : String) (arity : Nat) :
    Outcome (registerLateFunction name arity) none :=
  andThen getSession fun _ => andThen read fun _ => andThen (modifySession _) fun _ => pure _

theorem warnUnbound (name : String) (span : Span) : Outcome (warnUnbound name span) none :=
  andThen sight fun _ => report _ _ _

theorem warnFunctionNotFound (name : String) (arity : Nat) (span : Span) :
    Outcome (warnFunctionNotFound name arity span) none := andThen sight fun _ => report _ _ _

/-! ## Segments of a chain -/

theorem stopChain (c : Cursor) (span : Span) : Outcome (stopChain c span) none :=
  andThen (emitPush _ _ _) fun _ => pure _

theorem lowerThis (ident : Identifier) (c : Cursor) : Outcome (lowerThis ident c) none := by
  refine andThen classScope fun cls => ite ?_ ?_
  · exact andThen (emitPush _ _ _) fun _ => pure _
  · exact andThen (emitPushm _ _ _) fun _ => pure _

theorem lowerClassName (ident : Identifier) (c : Cursor) (cls : Nat) :
    Outcome (lowerClassName ident c cls) none :=
  ite (andThen (emitPush _ _ _) fun _ => pure _) (andThen (emitPushm _ _ _) fun _ => pure _)

theorem lowerInaccessible (ident : Identifier) (c : Cursor) :
    Outcome (lowerInaccessible ident c) none :=
  andThen (report _ _ _) fun _ => andThen sight fun _ => stopChain _ _

theorem lowerKnownCall (call : Call) (c : Cursor) (r : ProcRef) :
    Outcome (lowerKnownCall call c r) none := by
  refine andThen (emit _ _) fun _ => andThen getSession fun s => ?_
  split
  · exact defect _
  · exact onlyIf (modifyState _) (pure _)

theorem lowerLateCall (call : Call) (c : Cursor) : Outcome (lowerLateCall call c) none := by
  refine onlyIf (warnFunctionNotFound _ _ _) (andThen (registerLateFunction _ _) fun _ => ?_)
  exact andThen (andThen classOperand fun _ => emit _ _) fun _ => pure _

/-- Arguments and subscripts, and nothing else of a call, may halt. -/
theorem lowerInvocation {call : Call} (hargs : Outcome (call.args.forM fun a => do let _ ← part a) o)
    (hdims : Outcome (lowerDims part call.dims) p) (c : Cursor) (target : Option ProcRef) :
    Outcome (lowerInvocation part call c target) (o <|> p) := by
  have hbehind (type : Ty) (segment : Segment) : Outcome (finishInvocation part call c target (type, segment)) p :=
    last hdims fun _ => onlyIf (emitPushIndex _) (andThen read fun _ => pure _)
  apply bind hargs
  intro _
  cases target with
  | some r => exact andThen (lowerKnownCall call c r) fun q => hbehind q.1 q.2
  | none => exact andThen (lowerLateCall call c) fun q => hbehind q.1 q.2

/-! ## Sound chains -/

section
variable (hsound : ∀ n, n.isSound = true → Outcome (part n) none)
include hsound

theorem lowerDims {dims : List Node} (h : Node.areSound dims = true) :
    Outcome (lowerDims part dims) none := by
  apply withReader
  apply forM
  intro d hd
  exact andThen (hsound d (Node.areSound_iff.mp h d hd)) fun _ => pure _

theorem lowerArguments {args : List Node} (h : Node.areSound args = true) :
    Outcome (args.forM fun a => do let _ ← part a) none := by
  apply forM
  intro a ha
  exact andThen (hsound a (Node.areSound_iff.mp h a ha)) fun _ => pure _

section
variable {ident : Identifier} (hdims : Node.areSound ident.dims = true) (c : Cursor)
include hdims

theorem lowerSymbol (r : SymbolRef) : Outcome (lowerSymbol part ident c r) none := by
  refine andThen (getSymbol r) fun symbol => ?_
  split
  · exact andThen sight fun _ => andThen (report _ _ _) fun _ => stopChain _ _
  · refine andThen (lowerDims hsound hdims) fun _ => andThen read fun _ => ?_
    refine andThen (recordSplitDims _ _) fun _ => ite ?_ ?_
    · exact andThen (emitPush _ _ _) fun _ => pure _
    · exact onlyIf (emitPushDims _) (andThen (emitPushm _ _ _) fun _ => pure _)

theorem lowerLate : Outcome (lowerLate part ident c) none := by
  refine onlyIf (warnUnbound _ _) (andThen (registerLateVariable _ _) fun r => ?_)
  refine andThen (lowerDims hsound hdims) fun _ => onlyIf (emitPushDims _) ?_
  exact andThen classScope fun _ => andThen (emitPushm _ _ _) fun _ => pure _

theorem lowerIdentifier : Outcome (lowerIdentifier part ident c) none := by
  refine ite (lowerThis _ _) (andThen sight fun v => ?_)
  cases v.segmentTarget ident.name c with
  | symbol r => exact lowerSymbol hsound hdims c r
  | cls id => exact lowerClassName _ _ _
  | inaccessible => exact lowerInaccessible _ _
  | arrayReceiver => exact stopChain _ _
  | unbound =>
    exact ite (andThen (warnUnbound _ _) fun _ => stopChain _ _) (lowerLate hsound hdims c)

end

theorem lowerCall {call : Call} (hargs : Node.areSound call.args = true)
    (hdims : Node.areSound call.dims = true) (c : Cursor) : Outcome (lowerCall part call c) none := by
  have hinvocation (target : Option ProcRef) : Outcome (Lowering.lowerInvocation part call c target) none :=
    lowerInvocation (lowerArguments hsound hargs) (lowerDims hsound hdims) c target
  refine andThen getSession fun _ => withReader (andThen sight fun v => ?_)
  split
  · apply lowerIdentifier hsound
    exact hdims
  · refine andThen sight fun v => ?_
    cases v.callTarget call.name call.args.length c with
    | procedure r => exact hinvocation (some r)
    | unresolved => exact hinvocation none
    | nonStatic => exact andThen (report _ _ _) fun _ => stopChain _ _
    | inaccessible => exact andThen (report _ _ _) fun _ => stopChain _ _
    | arrayReceiver => exact stopChain _ _

/-- A link that has been taken out of its parentheses does not halt. -/
theorem lowerSegment {isRoot : Bool} {n : Node} (h : n.IsLink isRoot) (c : Cursor) :
    Outcome (lowerSegment part isRoot n.unwrap c) none := by
  have hn := Node.isSound_unwrap h.isSound
  have hkind := h.kind
  revert hn hkind
  cases n.unwrap with
  | identifier ident =>
    intro hn _
    rw [Node.isSound_identifier] at hn
    exact lowerIdentifier hsound hn c
  | call call =>
    intro hn _
    rw [Node.isSound_call, Bool.and_eq_true] at hn
    exact lowerCall hsound hn.1 hn.2 c
  | _ =>
    intro hn hkind
    dsimp only [Lowering.lowerSegment]
    rw [if_pos (by simpa [Node.isSegment] using hkind)]
    exact andThen (hsound _ hn) fun _ => pure _

theorem lowerSegments {isRoot : Bool} {root : Node} {rest : List Node} (hroot : root.IsLink isRoot)
    (hrest : ∀ s ∈ rest, s.IsLink false) (c : Cursor) :
    Outcome (lowerSegments part isRoot ((root :: rest).map Node.unwrap) c) none := by
  induction rest generalizing isRoot root c with
  | nil => exact ite (pure _) (andThen (lowerSegment hsound hroot c) fun _ => pure _)
  | cons next rest ih =>
    refine ite (pure _) (andThen (lowerSegment hsound hroot c) fun d => ?_)
    apply ih (hrest next (List.mem_cons_self ..))
    exact fun s hs => hrest s (List.mem_cons_of_mem next hs)

end

/-- A chain that is not joined by dots alone is refused before any of its segments is lowered. -/
theorem refuseChain {n : Node} (h : n.segments.toBool = false) :
    Outcome (chainSegments n) (some .invalidIndirection) := by
  unfold chainSegments
  cases hsegments : n.segments with
  | error span => exact halt _ _ _
  | ok segments => simp [hsegments, Except.toBool] at h

/-- A chain ends like its segments. -/
theorem lowerChain {segments : List Node}
    (h : Outcome (Lowering.lowerSegments part true (segments.map Node.unwrap)
      (.start (segments.length == 1))) o) (span : Span) : Outcome (lowerChain part segments span) o := by
  refine onlyIf (defect _) (andThen guidesWanted fun on => onlyIf (emitGuides _) ?_)
  rw [List.length_map]
  apply last h
  intro c
  exact onlyIf (emitPushlist _ _ _) (andThen (recordRead _ _) fun _ => pure _)

/-- A call that stands alone is lowered with its arguments and subscripts, whatever it calls. -/
theorem lowerCall_start {call : Call} (hargs : Outcome (call.args.forM fun a => do let _ ← part a) o)
    (hdims : Outcome (Lowering.lowerDims part call.dims) p) (isSingle : Bool) :
    Outcome (Lowering.lowerCall part call (.start isSingle)) (o <|> p) := by
  have hinvocation (target : Option ProcRef) := lowerInvocation hargs hdims (.start isSingle) target
  refine andThen getSession fun _ => withReader (andThen sight fun v => ?_)
  rw [accessedProperty?_start]
  refine andThen sight fun v => ?_
  obtain ⟨r, hr⟩ | hr := v.callTarget_start call.name call.args.length isSingle
  · rw [hr]
    exact hinvocation (some r)
  · rw [hr]
    exact hinvocation none

/-! ## Forms of expressions -/

theorem lowerItems {items : List Node} (h : ∀ n ∈ items, Outcome (part n) none) (common : Option Ty) :
    Outcome (lowerItems part common items) none := by
  induction items generalizing common with
  | nil => exact pure _
  | cons item rest ih =>
    have hrest := ih fun n hn => h n (List.mem_cons_of_mem item hn)
    unfold Lowering.lowerItems
    split
    · exact andThen (lowerLiteral _ _ _ _) fun _ => hrest _
    · exact andThen (h item (List.mem_cons_self ..)) fun _ => hrest _

theorem exists_lowerItems {items : List Node} (h : ∀ n ∈ items, ∃ o, Outcome (part n) o) :
    ∃ o, ∀ common, Outcome (Lowering.lowerItems part common items) o := by
  induction items with
  | nil => exact ⟨none, fun _ => pure _⟩
  | cons item rest ih =>
    obtain ⟨p, hrest⟩ := ih fun n hn => h n (List.mem_cons_of_mem item hn)
    obtain ⟨o, hitem⟩ := h item (List.mem_cons_self ..)
    unfold Lowering.lowerItems
    split
    · exact ⟨p, fun common => andThen (lowerLiteral _ _ _ _) fun _ => hrest _⟩
    · exact ⟨_, fun common => bind hitem fun _ => hrest _⟩

theorem lowerList {items dims : List Node} (hitems : Outcome (Lowering.lowerItems part none items) o)
    (hdims : Outcome (Lowering.lowerDims part dims) p) (guides : List Guide) :
    Outcome (lowerList part items dims guides) (o <|> p) := by
  refine bind (withReader hitems) fun common => andThen (emitAlloca _ _) fun _ => ?_
  refine last hdims fun _ => onlyIf (emitPushIndex _) (andThen guidesWanted fun on => ?_)
  exact onlyIf (emitGuides _) (pure _)

theorem lowerRange {first last : Node} {step : Option Node}
    (hfirst : Outcome (part first) o) (hlast : Outcome (part last) p)
    (hstep : ∀ n, step = some n → Outcome (part n) q) (hnone : step = none → q = none) (span : Span) :
    Outcome (lowerRange part first last step span) (o <|> p <|> q) := by
  apply bind hfirst
  intro _
  apply bind hlast
  intro _
  cases step with
  | none =>
    rw [hnone rfl]
    exact andThen (emitPush _ _ _) fun _ => andThen (emit _ _) fun _ => pure _
  | some n => exact Outcome.last (hstep n rfl) fun _ => andThen (emit _ _) fun _ => pure _

theorem lowerUnary {operand : Node} (h : Outcome (part operand) o) (op : UnaryOperator) (span : Span) :
    Outcome (lowerUnary part op operand span) o := by
  refine last h fun _ => andThen classScope fun _ => andThen (emitPop _ _ _) fun _ => ?_
  exact andThen (emit _ _) fun _ => andThen (emitPush _ _ _) fun _ => pure _

theorem lowerBinary {left right : Node} {op : Operator} (hop : op ≠ .dot) (hleft : Outcome (part left) o)
    (hright : Outcome (part right) p) (span : Span) :
    Outcome (lowerBinary part left op right span) (o <|> p) := by
  unfold Lowering.lowerBinary
  cases hopcode : OpCode.ofBinary? op with
  | none => cases op <;> first | exact absurd rfl hop | cases hopcode
  | some opcode =>
    refine bind hleft fun _ => last hright fun _ => andThen classScope fun _ => ?_
    refine andThen (emitPop _ _ _) fun _ => andThen (emitPop _ _ _) fun _ => ?_
    exact andThen (emit _ _) fun _ => andThen (emitPush _ _ _) fun _ => pure _

theorem lowerGroup {inner : Node} {dims : List Node} {guides : List Guide}
    (hmoved : isMovable inner dims = true → Outcome (part (inner.ungroup dims guides)) o)
    (hinner : Outcome (part inner) p) (hdims : Outcome (Lowering.lowerDims part dims) q) :
    Outcome (lowerGroup part inner dims guides) (if isMovable inner dims then o else p <|> q) := by
  unfold Lowering.lowerGroup
  split
  · next hmovable => exact hmoved hmovable
  · refine bind hinner fun _ => last hdims fun _ => ?_
    exact onlyIf (emitPushIndex _) (pure _)

section
variable (hsound : ∀ n, n.isSound = true → Outcome (part n) none)
include hsound

theorem lowerMember {left right : Node} {op : Operator} {lastFactor : Bool} {span : Span}
    (h : (Node.member left right op lastFactor span).isSound = true) :
    Outcome (do Lowering.lowerChain part (← chainSegments (.member left right op lastFactor span)) span)
      none := by
  have hchain := Node.isChain_member_of_isSound h
  obtain ⟨root, rest, hsegments, hroot, hrest⟩ := Node.segments_of_isSound h hchain
  rw [chainSegments_ok hsegments]
  exact lowerChain (lowerSegments hsound hroot hrest _) span

/-- A name or a call that stands alone is a chain of one link. -/
theorem lowerSingle {n : Node} (h : n.isSound = true) (hkind : n.unwrap.isSegment = true) (span : Span) :
    Outcome (Lowering.lowerChain part [n] span) none := by
  have hlink : n.IsLink true := ⟨h, by rw [hkind, Bool.true_or]⟩
  exact lowerChain (lowerSegments hsound hlink (fun s hs => absurd hs List.not_mem_nil) _) span

/-- A sound expression does not halt if its sound parts do not. -/
theorem lowerNode {n : Node} (h : n.isSound = true) : Outcome (lowerNode part n) none := by
  unfold Lowering.lowerNode
  cases n with
  | identifier ident => exact lowerSingle hsound h rfl _
  | call call => exact lowerSingle hsound h rfl _
  | member => exact lowerMember hsound h
  | literal => exact lowerLiteral _ _ _ _
  | list items dims =>
    simp only [Node.isSound, Bool.and_eq_true] at h
    have hitems := lowerItems (fun n hn => hsound n (Node.areSound_iff.mp h.1 n hn)) none
    exact lowerList hitems (lowerDims hsound h.2) _
  | range first last step =>
    simp only [Node.isSound, Bool.and_eq_true] at h
    refine lowerRange (hsound _ h.1.1) (hsound _ h.1.2) (q := none) ?_ (fun _ => rfl) _
    rintro n rfl
    exact hsound n h.2
  | unary op operand => exact lowerUnary (hsound operand h) _ _
  | binary left op right =>
    simp only [Node.isSound, Bool.and_eq_true, decide_eq_true_eq] at h
    exact lowerBinary h.1.1 (hsound _ h.1.2) (hsound _ h.2) _
  | group inner dims guides =>
    simp only [Node.isSound, Bool.and_eq_true] at h
    have hmoved := hsound _ (Node.isSound_ungroup h.1 h.2 guides)
    have hgroup : Outcome (Lowering.lowerGroup part inner dims guides)
        (if isMovable inner dims then none else none) :=
      lowerGroup (fun _ => hmoved) (hsound inner h.1) (lowerDims hsound h.2)
    rwa [ite_self] at hgroup
  | defaultArg => exact andThen (emitPush _ _ _) fun _ => pure _
  | dynamic => exact andThen (emitPush _ _ _) fun _ => pure _
  | _ => cases h

variable (horderly : ∀ n, n.isOrderly = true → ∃ o, Outcome (part n) o)
include horderly

omit hsound in
theorem exists_lowerDims {dims : List Node} (h : Node.areOrderly dims = true) :
    ∃ o, Outcome (Lowering.lowerDims part dims) o := by
  obtain ⟨o, ho⟩ := exists_forM (k := fun d => do let _ ← part d) fun d hd => by
    obtain ⟨o, ho⟩ := horderly d (Node.areOrderly_iff.mp h d hd)
    exact ⟨o, last ho fun _ => pure _⟩
  exact ⟨o, withReader ho⟩

/-- An orderly expression ends in one way only if its orderly parts do. -/
theorem exists_lowerNode {n : Node} (h : n.isOrderly = true) :
    ∃ o, Outcome (Lowering.lowerNode part n) o := by
  unfold Lowering.lowerNode
  cases n with
  | identifier ident => exact ⟨none, lowerSingle hsound (n := .identifier ident) h rfl _⟩
  | call call =>
    rw [Node.isOrderly_call, Bool.and_eq_true] at h
    obtain ⟨o, hargs⟩ := exists_forM (k := fun a => do let _ ← part a) fun a ha => by
      obtain ⟨o, ho⟩ := horderly a (Node.areOrderly_iff.mp h.1 a ha)
      exact ⟨o, last ho fun _ => pure _⟩
    obtain ⟨p, hdims⟩ := exists_lowerDims horderly h.2
    have hsegments : Outcome (Lowering.lowerSegments part true [.call call] (.start true)) (o <|> p) :=
      last (lowerCall_start hargs hdims true) fun _ => pure _
    exact ⟨_, lowerChain hsegments call.span⟩
  | member left right op last span =>
    simp only [Node.isOrderly, Bool.or_eq_true] at h
    obtain h | h := h
    · exact ⟨none, lowerMember hsound h⟩
    · exact ⟨_, stop (refuseChain (by simpa using h)) _⟩
  | literal => exact ⟨none, lowerLiteral _ _ _ _⟩
  | list items dims =>
    simp only [Node.isOrderly, Bool.and_eq_true] at h
    obtain ⟨o, hitems⟩ := exists_lowerItems fun n hn => horderly n (Node.areOrderly_iff.mp h.1 n hn)
    obtain ⟨p, hdims⟩ := exists_lowerDims horderly h.2
    exact ⟨_, lowerList (hitems none) hdims _⟩
  | range first last step =>
    simp only [Node.isOrderly, Bool.and_eq_true] at h
    obtain ⟨o, hfirst⟩ := horderly first h.1.1
    obtain ⟨p, hlast⟩ := horderly last h.1.2
    cases step with
    | none => exact ⟨_, lowerRange hfirst hlast (q := none) (fun n hn => by cases hn) (fun _ => rfl) _⟩
    | some step =>
      obtain ⟨q, hstep⟩ := horderly step h.2
      refine ⟨_, lowerRange hfirst hlast (q := q) ?_ (fun hn => by cases hn) _⟩
      intro n hn
      cases hn
      exact hstep
  | unary op operand =>
    obtain ⟨o, ho⟩ := horderly operand h
    exact ⟨o, lowerUnary ho _ _⟩
  | binary left op right =>
    simp only [Node.isOrderly, Bool.and_eq_true] at h
    obtain ⟨o, hleft⟩ := horderly left h.1
    obtain ⟨p, hright⟩ := horderly right h.2
    by_cases hop : op = .dot
    · rw [hop]
      exact ⟨_, halt _ _ _⟩
    · exact ⟨_, lowerBinary hop hleft hright _⟩
  | group inner dims guides =>
    have hmoved := Node.isOrderly_ungroup h
    simp only [Node.isOrderly, Bool.and_eq_true] at h
    obtain ⟨p, hinner⟩ := horderly inner h.1.1
    obtain ⟨q, hdims⟩ := exists_lowerDims horderly h.1.2
    by_cases hmovable : isMovable inner dims
    · obtain ⟨o, ho⟩ := horderly _ (hmoved hmovable)
      exact ⟨_, lowerGroup (fun _ => ho) hinner hdims⟩
    · exact ⟨_, lowerGroup (o := none) (fun h => absurd h hmovable) hinner hdims⟩
  | defaultArg => exact ⟨none, andThen (emitPush _ _ _) fun _ => pure _⟩
  | dynamic => exact ⟨none, andThen (emitPush _ _ _) fun _ => pure _⟩
  | _ => exact ⟨_, halt _ _ _⟩

end

theorem expressionWithin (depth : Nat) {n : Node} (h : n.isSound = true) :
    Outcome (expressionWithin depth n) none := by
  induction depth generalizing n with
  | zero => exact defect _
  | succ depth ih => exact lowerNode (fun n hn => ih hn) h

/-- A sound expression does not halt. -/
theorem expression {n : Node} (h : n.isSound = true) : Outcome (expression n) none := expressionWithin _ h

theorem exists_expressionWithin (depth : Nat) {n : Node} (h : n.isOrderly = true) :
    ∃ o, Outcome (Lowering.expressionWithin depth n) o := by
  induction depth generalizing n with
  | zero => exact ⟨none, defect _⟩
  | succ depth ih => exact exists_lowerNode (fun n hn => expressionWithin depth hn) (fun n hn => ih hn) h

/-- An orderly expression always halts at the same issue, or never. -/
theorem exists_expression {n : Node} (h : n.isOrderly = true) : ∃ o, Outcome (Lowering.expression n) o :=
  exists_expressionWithin _ h

end Outcome

end Diglot.Lowering
