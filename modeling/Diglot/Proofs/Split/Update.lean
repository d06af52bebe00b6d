import Diglot.Compile
import Diglot.Proofs.Split.Probe

/-! # Where an assignment halts

An assignment halts where its value does, and otherwise where its target does. Splitting a sound chain
makes factors that are sound chains themselves, each assigned to a made-up variable, so that only the
target is left to halt at. A chain that is not joined by dots alone is refused before it is split.
-/

set_option autoImplicit false

namespace Diglot.Lowering

/-- No made-up name is that of the current object. -/
theorem isThis_temporary {letters : String} (h : letters.toList.head? = some '%') (n : Nat) (span : Span) :
    (Identifier.plain (letters ++ toString n) span).isThis = false := by
  rw [Identifier.isThis, Identifier.plain, thisKeyword, beq_eq_false_iff_ne]
  intro heq
  have hhead := congrArg (fun s : String => s.toList.head?) heq
  simp [h] at hhead

namespace Outcome

variable {α : Type} {o p q : Option Issue}

/-! ## Stores -/

theorem targetSymbol (ident : Identifier) (type : Ty) : Outcome (targetSymbol ident type) none := by
  refine andThen sight fun v => ?_
  split
  · exact pure _
  · exact andThen (report _ _ _) fun _ => allocate _
  · exact allocate _

theorem storeIdentifier {ident : Identifier} (hdims : Node.areSound ident.dims = true) (type : Ty) :
    Outcome (storeIdentifier ident type) none := by
  refine andThen (targetSymbol _ _) fun r => andThen (getSymbol r) fun symbol => ?_
  refine andThen (lowerDims (fun n hn => expression hn) hdims) fun _ => ite (andThen read fun _ => ?_) ?_
  · refine andThen (recordIndexing _) fun _ => andThen (recordSplitDims _ _) fun _ => ?_
    exact andThen (emitStore _ _ _) fun _ => pure _
  · exact andThen (emitStore _ _ _) fun _ => pure _

theorem lowerProperty (property : Identifier) (c : Cursor) (resolution : Resolution) (span : Span) :
    Outcome (lowerProperty property c resolution span) none := by
  unfold Lowering.lowerProperty
  split
  · exact andThen (getSymbol _) fun _ => andThen (emitPushm _ _ _) fun _ => pure _
  · exact andThen (report _ _ _) fun _ => andThen (emitPush _ _ _) fun _ => pure _
  · refine onlyIf (warnUnbound _ _) (andThen (registerLateVariable _ _) fun r => ?_)
    exact andThen classScope fun _ => andThen (emitPushm _ _ _) fun _ => pure _

theorem storeProperty {property : Identifier} (hdims : Node.areSound property.dims = true) (c : Cursor)
    (span : Span) : Outcome (storeProperty property c span) none := by
  refine andThen sight fun v => andThen (lowerDims (fun n hn => expression hn) hdims) fun _ => ?_
  have hrest (resolution : Resolution) : Outcome (do
      let c ← Lowering.lowerProperty property c resolution span
      let _ ← Lowering.emitPoplist (c.depth + 1) v.frame.scope.classScope span
      return c.path) none := by
    apply andThen (lowerProperty _ _ _ _)
    exact fun d => andThen (emitPoplist _ _ _) fun _ => pure _
  refine ite ?_ (hrest _)
  exact andThen (recordIndexing _) fun _ => andThen (emitPushDims _) fun _ => hrest _

/-- The root of an assigned chain must not be a computed value. -/
theorem exists_lowerSegments {root : Node} {rest : List Node} (hroot : root.IsLink true)
    (hrest : ∀ s ∈ rest, s.IsLink false) :
    ∃ o, Outcome (Lowering.lowerSegments Lowering.expression false ((root :: rest).map Node.unwrap)
      (.start false)) o := by
  by_cases hsegment : root.unwrap.isSegment = true
  · have hlink : root.IsLink false := ⟨hroot.isSound, by simp [hsegment]⟩
    exact ⟨none, lowerSegments (fun n hn => expression hn) hlink hrest _⟩
  · refine ⟨some .nonIdentifierSegment, stop ?_ _⟩
    revert hsegment
    cases root.unwrap with
    | identifier => exact fun hsegment => absurd rfl hsegment
    | call => exact fun hsegment => absurd rfl hsegment
    | _ => exact fun _ => halt _ _ _

theorem exists_storeMember {property : Identifier} (hdims : Node.areSound property.dims = true)
    {segments : List Node} (h : ∃ o, Outcome (Lowering.lowerSegments Lowering.expression false
      (segments.map Node.unwrap) (.start false)) o) (span : Span) :
    ∃ o, Outcome (storeMember property segments span) o := by
  obtain ⟨o, ho⟩ := h
  refine ⟨o, last (withReader ho) fun c => andThen sight fun v => ite ?_ ?_⟩
  · exact andThen (emitPoplist _ _ _) fun _ => pure _
  · split
    · exact andThen (emit _ _) fun _ => pure _
    · exact storeProperty hdims _ _

theorem exists_storeChain {left right : Node} {op : Operator} {lastFactor : Bool} {span : Span}
    (h : (Node.member left right op lastFactor span).isOrderly = true) :
    ∃ o, Outcome (storeChain (.member left right op lastFactor span)) o := by
  simp only [Node.isOrderly, Bool.or_eq_true] at h
  obtain h | h := h
  · have hchain := Node.isChain_member_of_isSound h
    obtain ⟨root, rest, hsegments, hroot, hrest⟩ := Node.segments_of_isSound h hchain
    unfold Lowering.storeChain
    rw [chainSegments_ok hsegments, pure_bind]
    split
    · exact ⟨none, defect _⟩
    · next property hproperty =>
      have hdims : Node.areSound property.dims = true := by
        rw [← Node.isSound_identifier]
        obtain hmem | hmem := List.mem_cons.mp (List.mem_of_getLast? hproperty)
        · exact hmem ▸ hroot.isSound
        · exact (hrest _ hmem).isSound
      apply exists_storeMember hdims
      cases rest with
      | nil => exact ⟨none, pure _⟩
      | cons next rest =>
        apply exists_lowerSegments hroot
        exact fun s hs => hrest s ((List.dropLast_sublist _).subset hs)
    · exact ⟨_, halt _ _ _⟩
  · exact ⟨_, stop (refuseChain (by simpa using h)) _⟩

/-- Where an orderly target halts does not depend on the type of the value. -/
theorem exists_assignTo {target : Node} (h : target.isOrderly = true) :
    ∃ o, ∀ type, Outcome (assignTo target type) o := by
  unfold Lowering.assignTo
  cases target with
  | identifier ident =>
    dsimp only
    split
    · exact ⟨_, fun type => halt _ _ _⟩
    · have hdims : (Node.identifier ident).isSound = true := h
      rw [Node.isSound_identifier] at hdims
      exact ⟨none, fun type => storeIdentifier hdims type⟩
  | member =>
    obtain ⟨o, ho⟩ := exists_storeChain h
    exact ⟨o, fun type => ho⟩
  | _ => exact ⟨_, fun type => halt _ _ _⟩

theorem assignTo_temporary {letters : String} (h : letters.toList.head? = some '%') (n : Nat) (span : Span)
    (type : Ty) : Outcome (assignTo (.identifier (.plain (letters ++ toString n) span)) type) none := by
  unfold Lowering.assignTo
  dsimp only
  rw [isThis_temporary h, if_neg Bool.false_ne_true]
  exact storeIdentifier rfl type

/-! ## Statements with nodes -/

theorem withTemporary {letters : String} {k : String → Lower α}
    (h : ∀ n : Nat, Outcome (k (letters ++ toString n)) o) :
    Outcome (Lowering.nextTemporary letters >>= k) o := by
  intro f s
  exact h _ f _

theorem commit (n : GraphNode) : Outcome (commit n) none :=
  onlyIf (defect _) (andThen (note _ _ _) fun _ => modifyBlock _ _)

theorem hold (n : GraphNode) : Outcome (hold n) none := modifyState _

theorem tracking {m : Lower α} (h : Outcome m o) (node : GraphNode) : Outcome (tracking node m) o :=
  andThen (modifyState _) fun _ => last (withReader h) fun _ => andThen get fun _ => pure _

theorem freshNode (isTemporary : Bool) : Outcome (freshNode isTemporary) none := by
  refine andThen read fun _ => andThen ?_ fun _ => pure _
  exact andThen getSession fun _ => andThen (modifySession _) fun _ => pure _

theorem refineType (type : Ty) : Outcome (refineType type) none := by
  refine ite (andThen getSession fun _ => andThen get fun s => ?_) (pure _)
  split
  · exact pure _
  · exact pure _

section
variable {target value : Node}

theorem lowerValueAndStore (hvalue : Outcome (Lowering.expression value) p)
    (htarget : ∀ type, Outcome (Lowering.assignTo target type) q) (isLast : Bool) :
    Outcome (lowerValueAndStore target value isLast) (p <|> q) := by
  have hstore (startPc endPc : Nat) (type : Ty) : Outcome (do
      let updated ← Lowering.assignTo target (← Lowering.refineType type)
      return (startPc, endPc, updated)) q :=
    andThen (refineType type) fun _ => last (htarget _) fun _ => pure _
  refine andThen pc fun _ => bind hvalue fun type => andThen pc fun _ => ?_
  exact onlyIf recordSplitChain (hstore _ _ _)

theorem graphStatement (hprobe : Outcome (Lowering.probe value) o)
    (hvalue : Outcome (Lowering.expression value) p)
    (htarget : ∀ type, Outcome (Lowering.assignTo target type) q) (span : Span)
    (isTemporary isLast : Bool) :
    Outcome (graphStatement target value span isTemporary isLast) (o <|> p <|> q) := by
  refine andThen (freshNode _) fun fresh => bind hprobe fun _ => ?_
  refine last (tracking (lowerValueAndStore hvalue htarget isLast) fresh) fun r => ?_
  exact andThen (emitSilent _ _) fun _ => andThen (note _ _ _) fun _ => pure _

/-- The assignment of a sound value halts only where its target does. -/
theorem assignSound (hvalue : value.isSound = true)
    (htarget : ∀ type, Outcome (Lowering.assignTo target type) q) (span : Span)
    (isTemporary isLast : Bool) :
    Outcome (Lowering.graphStatement target value span isTemporary isLast) q :=
  graphStatement (probe hvalue) (expression hvalue) htarget span isTemporary isLast

/-! ## Splitting -/

section
variable (htarget : ∀ type, Outcome (Lowering.assignTo target type) q) (span : Span)
include htarget

/-- All factors are sound, so only the last one, which goes to the target, can halt. -/
theorem lowerFactors {factor : Node} (hfactor : factor.isSound = true) (anchor : Option Nat)
    {rest : List Node} (hrest : ∀ s ∈ rest, s.IsLink false) :
    Outcome (lowerFactors target span factor anchor rest) q := by
  have hmark : ("%ssa_" : String).toList.head? = some '%' := rfl
  induction rest generalizing factor anchor with
  | nil =>
    refine withTemporary fun n => ?_
    have hfirst := assignSound hfactor (assignTo_temporary hmark n span) span true true
    have hlast := assignSound (Node.isLink_plain ("%ssa_" ++ toString n) span true).isSound htarget span
      false false
    refine andThen (withReader hfirst) fun _ => andThen (hold _) fun _ => ?_
    exact last hlast fun _ => hold _
  | cons segment rest ih =>
    refine withTemporary fun n => ?_
    have hfirst := assignSound hfactor (assignTo_temporary hmark n span) span true false
    refine andThen (withReader hfirst) fun _ => andThen (hold _) fun _ => ?_
    refine andThen (modifyState _) fun _ => ih ?_ _ fun s hs => hrest s (List.mem_cons_of_mem segment hs)
    exact Node.isSound_member (Node.isLink_plain _ span true) (hrest segment (List.mem_cons_self ..)) _ _

theorem splitChain {root : Node} {rest : List Node} (hroot : root.IsLink true)
    (hrest : ∀ s ∈ rest, s.IsLink false) : Outcome (splitChain target (root :: rest) span) q := by
  have hroots : Outcome (do
      pushPointers [root]
      Lowering.lowerFactors target span root none rest) q :=
    andThen (modifyState _) fun _ => lowerFactors htarget span hroot.isSound none hrest
  refine andThen sight fun v => ?_
  cases splitAnchor? v (root :: rest) with
  | none => exact hroots
  | some cls =>
    cases rest with
    | nil => exact hroots
    | cons second rest =>
      -- The name of a class and what is read through it make one factor.
      have hsecond := hrest second (List.mem_cons_self ..)
      apply andThen (modifyState _)
      intro _
      apply lowerFactors htarget span (Node.isSound_member hroot hsecond _ _)
      exact fun s hs => hrest s (List.mem_cons_of_mem second hs)

/-- Splitting a sound chain leaves only the target to halt at. -/
theorem lowerSplit {left right : Node} {op : Operator} {lastFactor : Bool} {memberSpan : Span}
    (h : (Node.member left right op lastFactor memberSpan).isSound = true) :
    Outcome (lowerSplit target (.member left right op lastFactor memberSpan) span) q := by
  have hchain := Node.isChain_member_of_isSound h
  obtain ⟨root, rest, hsegments, hroot, hrest⟩ := Node.segments_of_isSound h hchain
  unfold Lowering.lowerSplit
  rw [chainSegments_ok hsegments, pure_bind]
  refine andThen (modifyState _) fun _ => last (splitChain htarget span hroot hrest) fun _ => ?_
  exact andThen get fun s => andThen (modifyState _) fun _ => forM fun n _ => commit n

end

end

/-- Whether the chains are split makes no difference to where an orderly assignment halts: where its
value does, and otherwise where its target does. -/
theorem exists_lowerUpdate {value : Node} (h : value.isOrderly = true) :
    ∃ p, ∀ target q, (∀ type, Outcome (Lowering.assignTo target type) q) → ∀ span,
      Outcome (lowerUpdate target value span) (p <|> q) := by
  have hwhole {o p : Option Issue} (hprobe : Outcome (Lowering.probe value) o)
      (hvalue : Outcome (Lowering.expression value) p) (target : Node) {q : Option Issue}
      (htarget : ∀ type, Outcome (Lowering.assignTo target type) q) (span : Span) :
      Outcome (do Lowering.commit (← Lowering.graphStatement target value span false false)) (o <|> p <|> q) :=
    last (graphStatement hprobe hvalue htarget span false false) fun n => commit n
  cases value with
  | member left right op lastFactor memberSpan =>
    simp only [Node.isOrderly, Bool.or_eq_true] at h
    obtain h | h := h
    · refine ⟨none, fun target q htarget span => andThen (modifyState _) fun _ => andThen getSession fun _ => ?_⟩
      exact ite (lowerSplit htarget span h) (hwhole (probe h) (expression h) target htarget span)
    · have hrefused := refuseChain (n := .member left right op lastFactor memberSpan) (by simpa using h)
      have hprobe : Outcome (Lowering.probe (.member left right op lastFactor memberSpan))
          (some .invalidIndirection) := stop hrefused _
      refine ⟨some .invalidIndirection, fun target q htarget span => ?_⟩
      refine andThen (modifyState _) fun _ => andThen getSession fun _ => ite (stop hrefused _) ?_
      exact stop (andThen (freshNode _) fun _ => stop hprobe _) _
  | _ =>
    obtain ⟨o, hprobe⟩ := exists_probe h
    obtain ⟨p, hvalue⟩ := exists_expression h
    refine ⟨o <|> p, fun target q htarget span => ?_⟩
    have hsame : ((o <|> p) <|> q : Option Issue) = (o <|> p <|> q : Option Issue) := by
      cases o <;> rfl
    rw [hsame]
    exact andThen (modifyState _) fun _ => andThen getSession fun _ => hwhole hprobe hvalue target htarget span

theorem exists_lowerUnnamed {node : Node} (h : node.isOrderly = true) :
    ∃ o, Outcome (lowerUnnamed node) o := by
  obtain ⟨p, hp⟩ := exists_lowerUpdate h
  have hmark : ("%t" : String).toList.head? = some '%' := rfl
  exact ⟨_, withTemporary fun n => hp _ none (assignTo_temporary hmark n node.span) node.span⟩

/-! ## Statements without nodes -/

theorem exists_lowerAssignment {target value : Node} (htarget : target.isOrderly = true)
    (hvalue : value.isOrderly = true) : ∃ o, Outcome (lowerAssignment target value) o := by
  obtain ⟨p, hp⟩ := exists_expression hvalue
  obtain ⟨q, hq⟩ := exists_assignTo htarget
  exact ⟨_, andThen (modifyState _) fun _ => bind hp fun type => last (hq type) fun _ => pure _⟩

theorem exists_lowerDiscarded {node : Node} (h : node.isOrderly = true) :
    ∃ o, Outcome (lowerDiscarded node) o := by
  obtain ⟨o, ho⟩ := exists_expression h
  exact ⟨o, last ho fun _ => andThen classScope fun _ => andThen (emitPop _ _ _) fun _ => pure _⟩

theorem exists_lowerCondition {condition : Node} (h : condition.isOrderly = true) (span : Span) :
    ∃ o, Outcome (lowerCondition condition span) o := by
  obtain ⟨o, ho⟩ := exists_expression h
  exact ⟨o, last ho fun _ => andThen classScope fun _ => andThen (emitPop _ _ _) fun _ => pure _⟩

theorem exists_lowerReturned {value : Option Node} (h : Node.isOrderly? value = true) (span : Span) :
    ∃ o, Outcome (lowerReturned value span) o := by
  cases value with
  | none => exact ⟨none, andThen (emitPush _ _ _) fun _ => pure _⟩
  | some v => exact exists_expression h

theorem checkReturned (procedure : Option Procedure) (type : Ty) (span : Span) :
    Outcome (checkReturned procedure type span) none := by
  unfold Lowering.checkReturned
  split
  · exact pure _
  · refine andThen getSession fun s => ite (andThen (report _ _ _) fun _ => ?_) (pure _)
    exact andThen (emitPop _ _ _) fun _ => andThen (emitPush _ _ _) fun _ => pure _

theorem patch (pending target : Nat) : Outcome (patch pending target) none := by
  intro f s
  obtain ⟨i, j, _, _, hrun⟩ | ⟨d, hrun⟩ := patch_cases pending target f s
  · rw [hrun]
  · rw [hrun]
    trivial

theorem closeUnit (unit : List Node) : Outcome (closeUnit unit) none := by
  refine andThen read fun f => ite (andThen emitLeave fun _ => pure _) (ite (pure _) ?_)
  refine andThen (andThen getSession fun _ => andThen read fun _ => pure _) fun procedure => ite ?_ ?_
  · exact andThen (emitPush _ _ _) fun _ => andThen (emitResult _) fun _ => pure _
  · exact andThen (emitPush _ _ _) fun _ => andThen (emitResult _) fun _ => pure _

end Outcome

end Diglot.Lowering
