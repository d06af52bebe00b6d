import Diglot.Proofs.Chains.Resolved

/-! # What the type of an expression depends on

The type that is found for an expression depends on what names stand for and on the options, and on nothing else
that is in a session: neither on the code so far nor on what was reported or is looked up at run time.

* `Session.Likewise s t`: names stand for the same in both sessions, and the options are the same.
* `Agree Q m n`: two runs that finish from such sessions return related values and end in such sessions.
* `Agree.expression`: an expression has the same type in such sessions.
-/

set_option autoImplicit false

namespace Diglot

open Lowering

/-- Names stand for the same, and the options are the same. -/
structure Session.Likewise (s t : Session) : Prop where
  names : s.SameNames t
  options : t.options = s.options

namespace Session.Likewise

variable {s t u : Session}

theorem refl (s : Session) : s.Likewise s := ⟨.refl s, rfl⟩

theorem symm (h : s.Likewise t) : t.Likewise s := ⟨h.names.symm, h.options.symm⟩

theorem trans (h : s.Likewise t) (h' : t.Likewise u) : s.Likewise u :=
  ⟨h.names.trans h'.names, h'.options.trans h.options⟩

end Session.Likewise

namespace Lowering

variable {α β γ δ : Type} {f : Frame} {s t : State}

/-- The code of expressions changes neither what names stand for nor the options. -/
theorem endures_likewise (s : Session) (block : Nat) : Endures s.Likewise 0 block where
  log _ _ h := h.trans ⟨⟨rfl, rfl, rfl, rfl, rfl, rfl⟩, rfl⟩
  diagnostics _ _ h := h.trans ⟨⟨rfl, rfl, rfl, rfl, rfl, rfl⟩, rfl⟩
  emit t i span _ h := by
    refine h.trans ⟨t.sameNames_emit block i span, ?_⟩
    unfold Session.emit
    split <;> rfl
  lateVariable _ _ h := h.trans ⟨⟨rfl, rfl, rfl, rfl, rfl, rfl⟩, rfl⟩
  lateMember _ _ _ _ h := h.trans ⟨⟨rfl, rfl, rfl, rfl, rfl, rfl⟩, rfl⟩
  lateFunction _ _ h := h.trans ⟨⟨rfl, rfl, rfl, rfl, rfl, rfl⟩, rfl⟩
  known _ _ := Nat.zero_le _

/-- An expression is lowered to its end in a session that is like the one before. -/
theorem likewise_expression {n : Node} {type : Ty} (hrun : expression n f s = .ok type t) :
    s.session.Likewise t.session :=
  (Sparing.expression n (endures_likewise s.session f.block)).ok (.refl _) hrun

/-! ## Runs that agree -/

/-- However the step ends, the session is like the one before. -/
def Conserving (m : Lower α) : Prop := ∀ (s : Session) (f : Frame), Spares s.Likewise f m

namespace Conserving

/-- A step that is built of what the code of expressions does is conserving. -/
theorem ofSpares {m : Lower α} (h : ∀ {I : Session → Prop} {f : Frame}, Endures I 0 f.block → Spares I f m) :
    Conserving m := fun s f => h (endures_likewise s f.block)

theorem report (issue : Issue) (message : String) (span : Span) : Conserving (report issue message span) :=
  ofSpares fun hI => .report hI _ _ _

theorem warnUnbound (name : String) (span : Span) : Conserving (warnUnbound name span) :=
  ofSpares fun hI => .warnUnbound hI _ _

theorem recordRead (path : Path) (viaCall : Bool) : Conserving (recordRead path viaCall) :=
  ofSpares fun hI => .recordRead hI _ _

theorem emit {i : Instruction} (hi : i.opcode.isAlloc = false) (span : Span) : Conserving (emit i span) :=
  ofSpares fun hI => .emit hI hi _

theorem emitPush (operand : Operand) (dims : Nat) (span : Span) : Conserving (emitPush operand dims span) :=
  ofSpares fun hI => .emitPush hI _ _ _

theorem emitPushm (operand : Operand) (cls : Option Nat) (span : Span) : Conserving (emitPushm operand cls span) :=
  ofSpares fun hI => .emitPushm hI _ _ _

theorem emitPushlist (depth : Nat) (afterCall : Bool) (span : Span) : Conserving (emitPushlist depth afterCall span) :=
  ofSpares fun hI => .emitPushlist hI _ _ _

theorem emitPushIndex (operand : Operand) : Conserving (emitPushIndex operand) := ofSpares fun hI => .emitPushIndex hI _

theorem emitPushDims (dims : Nat) : Conserving (emitPushDims dims) := ofSpares fun hI => .emitPushDims hI _

theorem emitPop (operand : Operand) (cls : Option Nat) (span : Span) : Conserving (emitPop operand cls span) :=
  ofSpares fun hI => .emitPop hI _ _ _

theorem emitAlloca (count : Nat) (isString : Bool) : Conserving (emitAlloca count isString) :=
  ofSpares fun hI => .emitAlloca hI _ _

theorem emitGuides (guides : List Guide) : Conserving (emitGuides guides) := ofSpares fun hI => .emitGuides hI _

theorem emitCall (r : ProcRef) (depth : Nat) (span : Span) : Conserving (emitCallTo .callr r depth span) :=
  ofSpares fun hI => .emitCallTo hI rfl _ _ _

theorem emitLateCall (i depth : Nat) (span : Span) : Conserving (emitLateCall i depth span) :=
  ofSpares fun hI => .emitLateCall hI _ _ _

end Conserving

/-- Two runs that finish from sessions that are alike return related values, and end in sessions that are
alike. -/
def Agree (Q : α → β → Prop) (m : Lower α) (n : Lower β) : Prop :=
  ∀ f s s' a b t t', s.session.Likewise s'.session → m f s = .ok a t → n f s' = .ok b t' →
    Q a b ∧ t.session.Likewise t'.session

namespace Agree

variable {Q : α → β → Prop} {R : γ → δ → Prop} {m : Lower α} {n : Lower β}

theorem pure {a : α} {b : β} (h : Q a b) : Agree Q (Pure.pure a) (Pure.pure b) := by
  intro f s s' _ _ t t' hs hrun hrun'
  cases hrun
  cases hrun'
  exact ⟨h, hs⟩

theorem bind {k : α → Lower γ} {l : β → Lower δ} (hm : Agree Q m n)
    (hk : ∀ a b, Q a b → Agree R (k a) (l b)) : Agree R (m >>= k) (n >>= l) := by
  intro f s s' c d u u' hs hrun hrun'
  obtain ⟨a, t, hm', hk'⟩ := bind_eq_ok.mp hrun
  obtain ⟨b, t', hn', hl'⟩ := bind_eq_ok.mp hrun'
  obtain ⟨hab, ht⟩ := hm f s s' a b t t' hs hm' hn'
  exact hk a b hab f t t' c d u u' ht hk' hl'

theorem ite {c : Prop} [Decidable c] {m' : Lower α} {n' : Lower β} (hm : Agree Q m n) (hm' : Agree Q m' n') :
    Agree Q (if c then m else m') (if c then n else n') := by
  split
  · exact hm
  · exact hm'

/-- The first run never finishes. -/
theorem stop (h : ∀ f s a t, m f s ≠ .ok a t) : Agree Q m n :=
  fun f s _ a _ t _ _ hrun _ => absurd hrun (h f s a t)

theorem defect (d : Defect) : Agree Q (Lowering.defect d : Lower α) n := stop fun _ _ _ _ hrun => by cases hrun

theorem halt (issue : Issue) (message : String) (span : Span) :
    Agree Q (Lowering.halt issue message span : Lower α) n := stop fun _ _ _ _ hrun => by cases hrun

/-- Whatever two conserving steps return, their sessions stay alike. -/
theorem conserving (hm : Conserving m) (hn : Conserving n) : Agree (fun _ _ => True) m n := by
  intro f s s' a b t t' hs hrun hrun'
  have ht := (hm s.session f).ok (.refl _) hrun
  have ht' := (hn s'.session f).ok (.refl _) hrun'
  exact ⟨trivial, ht.symm.trans (hs.trans ht')⟩

/-- Conserving steps in front of others do not matter. -/
theorem firstOf {k : α → Lower γ} {l : β → Lower δ} (hm : Conserving m) (hn : Conserving n)
    (hk : ∀ a b, Agree R (k a) (l b)) : Agree R (m >>= k) (n >>= l) := bind (conserving hm hn) fun a b _ => hk a b

/-- The same conserving step in front of others does not matter. -/
theorem first {k : α → Lower γ} {l : α → Lower δ} (hm : Conserving m) (hk : ∀ a b, Agree R (k a) (l b)) :
    Agree R (m >>= k) (m >>= l) := firstOf hm hm hk

/-- A conserving step that is done only if a condition holds. -/
theorem onlyIf {c : Prop} [Decidable c] {m : Lower α} {k : Lower γ} {l : Lower δ} (hm : Conserving m)
    (hk : Agree R k l) : Agree R (if c then m >>= fun _ => k else k) (if c then m >>= fun _ => l else l) :=
  ite (first hm fun _ _ => hk) hk

theorem forM {l : List γ} {k : γ → Lower Unit} (h : ∀ a ∈ l, Agree (fun _ _ => True) (k a) (k a)) :
    Agree (fun _ _ => True) (l.forM k) (l.forM k) := by
  induction l with
  | nil => exact pure trivial
  | cons a rest ih =>
    exact bind (h a (List.mem_cons_self ..)) fun _ _ _ => ih fun b hb => h b (List.mem_cons_of_mem a hb)

theorem withReader {g : Frame → Frame} (h : Agree Q m n) :
    Agree Q (MonadWithReader.withReader g m : Lower α) (MonadWithReader.withReader g n) := fun f => h (g f)

/-! ## Reading -/

theorem withFrame {k : Frame → Lower α} {l : Frame → Lower β} (h : ∀ f, Agree Q (k f) (l f)) :
    Agree Q (MonadReader.read >>= k) (MonadReader.read >>= l) := fun f => h f f

theorem withSession {k : Session → Lower α} {l : Session → Lower β}
    (h : ∀ s t : Session, s.Likewise t → Agree Q (k s) (l t)) :
    Agree Q (getSession >>= k) (getSession >>= l) :=
  fun f s s' a b t t' hs hrun hrun' => h s.session s'.session hs f s s' a b t t' hs hrun hrun'

theorem withSight {k : Sight → Lower α} {l : Sight → Lower β}
    (h : ∀ (f : Frame) (s t : Session), s.SameNames t → Agree Q (k (sightFrom f s)) (l (sightFrom f t))) :
    Agree Q (sight >>= k) (sight >>= l) := by
  intro f s s' a b t t' hs hrun hrun'
  obtain ⟨v, u, hv, hk⟩ := bind_eq_ok.mp hrun
  obtain ⟨v', u', hv', hl⟩ := bind_eq_ok.mp hrun'
  obtain ⟨rfl, rfl⟩ := sight_ok hv
  obtain ⟨rfl, rfl⟩ := sight_ok hv'
  exact h f u.session u'.session hs.names f u u' a b t t' hs hk hl

theorem classScope : Agree Eq classScope classScope := withFrame fun _ => pure rfl

theorem getSymbol (r : SymbolRef) : Agree Eq (getSymbol r) (getSymbol r) := by
  intro f s s' x y t t' hs hrun hrun'
  rw [run_getSymbol] at hrun hrun'
  rw [hs.names.symbol?_eq] at hrun'
  cases hx : s.session.symbol? r with
  | none =>
    rw [hx] at hrun
    cases hrun
  | some z =>
    rw [hx] at hrun hrun'
    cases hrun
    cases hrun'
    exact ⟨rfl, hs⟩

theorem guidesWanted : Agree Eq guidesWanted guidesWanted :=
  withFrame fun _ => withSession fun _ _ hst => pure (by rw [hst.options])

/-! ## Forms without parts -/

theorem lowerLiteral (kind : LiteralKind) (source : String) (span : Span) (expected : Ty) :
    Agree Eq (lowerLiteral kind source span expected) (lowerLiteral kind source span expected) := by
  refine withSession fun s t hst => bind guidesWanted fun on _ heq => ?_
  subst heq
  rw [hst.options]
  have hstring : Conserving (lowerString source span) := .ofSpares fun hI => .lowerString hI _ _
  have hoperand : Conserving (literalOperand kind source span) := .ofSpares fun hI => .literalOperand hI _ _ _
  cases kind with
  | string => exact onlyIf (.emitPushIndex _) (first hstring fun _ _ => pure rfl)
  | _ =>
    refine onlyIf (.emitPushIndex _) (first hoperand fun a b => ?_)
    exact firstOf (.emitPush a _ _) (.emitPush b _ _) fun _ _ => pure rfl

end Agree

/-! ## Segments of a chain -/

/-- Two cursors that differ only in the entry of the segments that are looked up at run time. -/
def Cursor.Like (c d : Cursor) : Prop := ∃ entry, d = { c with lateEntry := entry }

theorem Cursor.Like.refl (c : Cursor) : c.Like c := ⟨c.lateEntry, rfl⟩

theorem Cursor.Like.track {c d : Cursor} (h : c.Like d) (x : Segment) : (c.track x).Like (d.track x) := by
  obtain ⟨entry, rfl⟩ := h
  unfold Cursor.track
  split
  · exact ⟨entry, rfl⟩
  · exact ⟨entry, rfl⟩

theorem Cursor.Like.behind {c d : Cursor} (h : c.Like d) (type : Ty) (anchor : Option Nat) :
    Cursor.Like { c with type, depth := c.depth + 1, anchor } { d with type, depth := d.depth + 1, anchor } := by
  obtain ⟨entry, rfl⟩ := h
  exact ⟨entry, rfl⟩

/-- Entering a member that is looked up at run time changes the entry of the cursor only. -/
theorem registerLateVariable_like {name : String} {c : Cursor} {r : Nat × Cursor}
    (hrun : registerLateVariable name c f s = .ok r t) : c.Like r.2 := by
  rw [registerLateVariable, run_bind, run_getSession] at hrun
  cases hentry : c.lateEntry with
  | none =>
    simp only [hentry] at hrun
    cases hrun
    exact ⟨_, rfl⟩
  | some i =>
    simp only [hentry, run_ite] at hrun
    split at hrun
    · cases hrun
      exact .refl c
    · cases hrun
      exact ⟨_, rfl⟩

namespace Agree

section
variable {c c' : Cursor} (hc : c.Like c')
include hc

theorem stopChain (span : Span) : Agree Cursor.Like (stopChain c span) (stopChain c' span) := by
  obtain ⟨entry, rfl⟩ := hc
  exact first (.emitPush _ _ _) fun _ _ => pure ⟨entry, rfl⟩

theorem lowerThis (ident : Identifier) : Agree Cursor.Like (lowerThis ident c) (lowerThis ident c') := by
  obtain ⟨entry, rfl⟩ := hc
  refine bind classScope fun cls _ heq => ?_
  subst heq
  have hmoved : Cursor.Like { c with type := objectType cls, depth := c.depth + 1 }
      { c with type := objectType cls, depth := c.depth + 1, lateEntry := entry } := ⟨entry, rfl⟩
  have hend := hmoved.track (.ofName ident.name none cls)
  exact ite (first (.emitPush _ _ _) fun _ _ => pure hend) (first (.emitPushm _ _ _) fun _ _ => pure hend)

theorem lowerClassName (ident : Identifier) (cls : Nat) :
    Agree Cursor.Like (lowerClassName ident c cls) (lowerClassName ident c' cls) := by
  have hend := (hc.track (.ofName ident.name none (some cls))).behind (.scalar cls) (some cls)
  obtain ⟨entry, rfl⟩ := hc
  exact ite (first (.emitPush _ _ _) fun _ _ => pure hend) (first (.emitPushm _ _ _) fun _ _ => pure hend)

theorem lowerInaccessible (ident : Identifier) :
    Agree Cursor.Like (lowerInaccessible ident c) (lowerInaccessible ident c') := by
  refine first (.report _ _ _) fun _ _ => withSight fun f s t hst => ?_
  have hhidden : (sightFrom f t).hiddenMember? ident.name c' = (sightFrom f s).hiddenMember? ident.name c := by
    obtain ⟨entry, rfl⟩ := hc
    exact Sight.hiddenMember?_sightFrom hst f ident.name c
  rw [hhidden]
  cases (sightFrom f s).hiddenMember? ident.name c with
  | none => exact stopChain hc _
  | some x => exact stopChain (hc.track x) _

theorem registerLateVariable (name : String) :
    Agree (fun r r' => r.2.Like r'.2) (registerLateVariable name c) (registerLateVariable name c') := by
  have hneutral (c : Cursor) : Conserving (Lowering.registerLateVariable name c) :=
    .ofSpares fun hI => (Sparing.registerLateVariable hI name fun _ _ => Nat.zero_le _).spares
  intro f s s' r r' t t' hs hrun hrun'
  refine ⟨?_, (conserving (hneutral c) (hneutral c') f s s' r r' t t' hs hrun hrun').2⟩
  obtain ⟨entry, hr⟩ := registerLateVariable_like hrun
  obtain ⟨entry', hr'⟩ := registerLateVariable_like hrun'
  obtain ⟨entry'', rfl⟩ := hc
  exact ⟨entry', by rw [hr, hr']⟩

variable {part : LowerPart} {dims : List Node}

theorem lowerSymbol {ident : Identifier}
    (hdims : Agree (fun _ _ => True) (lowerDims part ident.dims) (lowerDims part ident.dims))
    (r : SymbolRef) : Agree Cursor.Like (lowerSymbol part ident c r) (lowerSymbol part ident c' r) := by
  refine bind (getSymbol r) fun x _ heq => ?_
  subst heq
  have hanchor : c'.anchor = c.anchor := by
    obtain ⟨entry, rfl⟩ := hc
    rfl
  rw [hanchor]
  cases (if x.isStatic then none else c.anchor) with
  | some cls =>
    refine withSight fun f s t _ => ?_
    exact firstOf (.report _ _ _) (.report _ _ _) fun _ _ => stopChain hc _
  | none =>
    refine bind hdims fun _ _ _ => withFrame fun f => ?_
    have hsplit : Conserving (recordSplitDims (literalDims f.dialect ident.dims) false) :=
      .ofSpares fun _ => .recordSplitDims _ _
    have hend := (hc.track { Segment.ofName ident.name (some r) x.classScope with
      dims := literalDims f.dialect ident.dims }).behind (x.type.subscripted ident.dims.length) none
    refine first hsplit fun _ _ => ?_
    obtain ⟨entry, rfl⟩ := hc
    exact ite (first (.emitPush _ _ _) fun _ _ => pure hend)
      (onlyIf (.emitPushDims _) (first (.emitPushm _ _ _) fun _ _ => pure hend))

theorem lowerLate {ident : Identifier}
    (hdims : Agree (fun _ _ => True) (lowerDims part ident.dims) (lowerDims part ident.dims)) :
    Agree Cursor.Like (lowerLate part ident c) (lowerLate part ident c') := by
  have hreceiver : c'.receiver? = c.receiver? := by
    obtain ⟨entry, rfl⟩ := hc
    rfl
  unfold Lowering.lowerLate
  rw [hreceiver]
  refine onlyIf (.warnUnbound _ _) (bind (registerLateVariable hc ident.name) fun r r' hr => bind hdims fun _ _ _ => ?_)
  obtain ⟨entry, hr⟩ := hr
  have hend : Agree Cursor.Like
      (do
        let _ ← emitPushm (.dynamic r.1) (← Lowering.classScope) ident.span
        return { r.2 with type := .var, depth := r.2.depth + 1, isLate := true, anchor := none } : Lower Cursor)
      (do
        let _ ← emitPushm (.dynamic r'.1) (← Lowering.classScope) ident.span
        return { r'.2 with type := .var, depth := r'.2.depth + 1, isLate := true, anchor := none }) := by
    refine bind classScope fun cls cls' _ => firstOf (.emitPushm _ _ _) (.emitPushm _ _ _) fun _ _ => pure ?_
    rw [hr]
    exact ⟨entry, rfl⟩
  exact onlyIf (.emitPushDims _) hend

theorem lowerIdentifier {ident : Identifier}
    (hdims : Agree (fun _ _ => True) (lowerDims part ident.dims) (lowerDims part ident.dims)) :
    Agree Cursor.Like (lowerIdentifier part ident c) (lowerIdentifier part ident c') := by
  have hdepth : c'.depth = c.depth := by
    obtain ⟨entry, rfl⟩ := hc
    rfl
  unfold Lowering.lowerIdentifier
  rw [hdepth]
  refine ite (lowerThis hc ident) (withSight fun f s t hst => ?_)
  have htarget : (sightFrom f t).segmentTarget ident.name c' = (sightFrom f s).segmentTarget ident.name c := by
    obtain ⟨entry, rfl⟩ := hc
    exact Sight.segmentTarget_sightFrom hst f ident.name c
  rw [htarget]
  cases (sightFrom f s).segmentTarget ident.name c with
  | symbol r => exact lowerSymbol hc hdims r
  | cls id => exact lowerClassName hc ident id
  | inaccessible => exact lowerInaccessible hc ident
  | arrayReceiver => exact stopChain hc _
  | unbound =>
    exact ite (first (.warnUnbound _ _) fun _ _ => stopChain hc _) (lowerLate hc hdims)

/-! ### Calls -/

omit hc in
theorem lowerKnownCall (call : Call) (r : ProcRef) : Agree Eq (lowerKnownCall call c r) (lowerKnownCall call c' r) := by
  refine firstOf (.emitCall _ _ _) (.emitCall _ _ _) fun _ _ => withSession fun s t hst => ?_
  rw [hst.names.procedure?_eq]
  cases s.procedure? r with
  | none => exact defect _
  | some p =>
    have hcallee : Conserving (modify fun s : State => { s with lastCallee := some r } : Lower Unit) :=
      .ofSpares fun _ => .modifyState fun _ => rfl
    exact onlyIf hcallee (pure rfl)

theorem lowerLateCall (call : Call) : Agree Eq (lowerLateCall call c) (lowerLateCall call c') := by
  have hwarn : Conserving (warnFunctionNotFound call.name call.args.length call.span) :=
    .ofSpares fun hI => .warnFunctionNotFound hI _ _ _
  have hregister : Conserving (registerLateFunction call.name call.args.length) :=
    .ofSpares fun hI => .registerLateFunction hI _ _
  obtain ⟨entry, rfl⟩ := hc
  refine onlyIf hwarn (first hregister fun i i' => ?_)
  exact firstOf (.emitLateCall i _ _) (.emitLateCall i' _ _) fun _ _ => pure rfl

theorem lowerInvocation {call : Call}
    (hargs : Agree (fun _ _ => True) (call.args.forM fun a => do let _ ← part a)
      (call.args.forM fun a => do let _ ← part a))
    (hdims : Agree (fun _ _ => True) (lowerDims part call.dims) (lowerDims part call.dims)) (target : Option ProcRef) :
    Agree Cursor.Like (lowerInvocation part call c target) (lowerInvocation part call c' target) := by
  refine bind hargs fun _ _ _ => ?_
  have hbehind (r : Ty × Segment) (dialect : Dialect) : Cursor.Like
      { c.track { r.2 with dims := literalDims dialect call.dims } with
        type := r.1.subscripted call.dims.length
        depth := 1
        afterCall := true
        anchor := none
        lateEntry := none
        hasCall := (c.track { r.2 with dims := literalDims dialect call.dims }).hasCall || target.isSome }
      { c'.track { r.2 with dims := literalDims dialect call.dims } with
        type := r.1.subscripted call.dims.length
        depth := 1
        afterCall := true
        anchor := none
        lateEntry := none
        hasCall := (c'.track { r.2 with dims := literalDims dialect call.dims }).hasCall || target.isSome } := by
    obtain ⟨entry, htrack⟩ := hc.track { r.2 with dims := literalDims dialect call.dims }
    rw [htrack]
    exact .refl _
  cases target with
  | none =>
    refine bind (lowerLateCall hc call) fun r _ heq => bind hdims fun _ _ _ => ?_
    subst heq
    exact onlyIf (.emitPushIndex _) (withFrame fun f => pure (hbehind r f.dialect))
  | some ref =>
    refine bind (lowerKnownCall call ref) fun r _ heq => bind hdims fun _ _ _ => ?_
    subst heq
    exact onlyIf (.emitPushIndex _) (withFrame fun f => pure (hbehind r f.dialect))

theorem lowerResolvedCall {call : Call}
    (hargs : Agree (fun _ _ => True) (call.args.forM fun a => do let _ ← part a)
      (call.args.forM fun a => do let _ ← part a))
    (hdims : Agree (fun _ _ => True) (lowerDims part call.dims) (lowerDims part call.dims)) :
    Agree Cursor.Like (lowerResolvedCall part call c) (lowerResolvedCall part call c') := by
  refine withSight fun f s t hst => ?_
  have htarget : (sightFrom f t).callTarget call.name call.args.length c' =
      (sightFrom f s).callTarget call.name call.args.length c := by
    obtain ⟨entry, rfl⟩ := hc
    exact Sight.callTarget_sightFrom hst f _ _ c
  rw [htarget]
  cases (sightFrom f s).callTarget call.name call.args.length c with
  | procedure r => exact lowerInvocation hc hargs hdims _
  | unresolved => exact lowerInvocation hc hargs hdims _
  | nonStatic => exact firstOf (.report _ _ _) (.report _ _ _) fun _ _ => stopChain hc _
  | inaccessible => exact first (.report _ _ _) fun _ _ => stopChain hc _
  | arrayReceiver => exact stopChain hc _

theorem lowerCall {call : Call}
    (hargs : Agree (fun _ _ => True) (call.args.forM fun a => do let _ ← part a)
      (call.args.forM fun a => do let _ ← part a))
    (hdims : Agree (fun _ _ => True) (lowerDims part call.dims) (lowerDims part call.dims)) :
    Agree Cursor.Like (lowerCall part call c) (lowerCall part call c') := by
  refine withSession fun s t hst => ?_
  rw [hst.options]
  refine withReader (withSight fun f s t hst => ?_)
  have haccessed : accessedProperty? (sightFrom f t) call c' = accessedProperty? (sightFrom f s) call c := by
    obtain ⟨entry, rfl⟩ := hc
    exact Sight.accessedProperty?_sightFrom hst f call c
  rw [haccessed]
  cases accessedProperty? (sightFrom f s) call c with
  | none => exact lowerResolvedCall hc hargs hdims
  | some property => exact lowerIdentifier hc hdims

end

/-! ## Expressions -/

section
variable {part : LowerPart} (hpart : ∀ n : Node, Agree Eq (part n) (part n))
include hpart

theorem part_forM (l : List Node) :
    Agree (fun _ _ => True) (l.forM fun n => do let _ ← part n) (l.forM fun n => do let _ ← part n) :=
  forM fun n _ => bind (hpart n) fun _ _ _ => pure trivial

theorem lowerDims (dims : List Node) : Agree (fun _ _ => True) (lowerDims part dims) (lowerDims part dims) :=
  withReader (part_forM hpart dims)

theorem lowerSegment {c c' : Cursor} (hc : c.Like c') (isRoot : Bool) (n : Node) :
    Agree Cursor.Like (lowerSegment part isRoot n c) (lowerSegment part isRoot n c') := by
  have hroot (issue : Issue) (message : String) (span : Span) : Agree Cursor.Like
      (if isRoot && isValueRoot n then lowerValueRoot part n c else Lowering.halt issue message span)
      (if isRoot && isValueRoot n then lowerValueRoot part n c' else Lowering.halt issue message span) := by
    refine ite (bind (hpart n) fun type _ heq => pure ?_) (halt _ _ _)
    subst heq
    obtain ⟨entry, rfl⟩ := hc
    exact ⟨entry, rfl⟩
  cases n with
  | identifier ident => exact lowerIdentifier hc (lowerDims hpart _)
  | call call => exact lowerCall hc (part_forM hpart _) (lowerDims hpart _)
  | _ => exact hroot _ _ _

theorem lowerSegments {c c' : Cursor} (hc : c.Like c') (isRoot : Bool) (l : List Node) :
    Agree Cursor.Like (lowerSegments part isRoot l c) (lowerSegments part isRoot l c') := by
  induction l generalizing isRoot c c' with
  | nil => exact pure hc
  | cons n rest ih =>
    have hstopped : c'.isStopped = c.isStopped := by
      obtain ⟨entry, rfl⟩ := hc
      rfl
    unfold Lowering.lowerSegments
    rw [hstopped]
    exact ite (pure hc) (bind (lowerSegment hpart hc isRoot n) fun d d' hd => ih hd false)

theorem lowerChain (l : List Node) (span : Span) : Agree Eq (lowerChain part l span) (lowerChain part l span) := by
  unfold Lowering.lowerChain
  refine ite (bind (Q := fun _ _ => False) (defect _) nofun) (bind guidesWanted fun on _ heq => ?_)
  subst heq
  refine onlyIf (.emitGuides _) (bind (lowerSegments hpart (.refl _) true _) fun c c' hc => ?_)
  obtain ⟨entry, rfl⟩ := hc
  exact onlyIf (.emitPushlist _ _ _) (first (.recordRead _ _) fun _ _ => pure rfl)

theorem lowerItems (common : Option Ty) (items : List Node) :
    Agree Eq (lowerItems part common items) (lowerItems part common items) := by
  induction items generalizing common with
  | nil => exact pure rfl
  | cons item rest ih =>
    have hthen {m n : Lower Ty} (hm : Agree Eq m n) :
        Agree Eq (m >>= fun type => Lowering.lowerItems part (some (commonType common type)) rest)
          (n >>= fun type => Lowering.lowerItems part (some (commonType common type)) rest) := by
      refine bind hm fun type _ heq => ?_
      subst heq
      exact ih _
    cases item with
    | literal kind source span => exact hthen (lowerLiteral kind source span _)
    | _ => exact hthen (hpart _)

theorem lowerList (items dims : List Node) (guides : List Guide) :
    Agree Eq (lowerList part items dims guides) (lowerList part items dims guides) := by
  refine bind (withReader (lowerItems hpart none items)) fun common _ heq => ?_
  subst heq
  refine first (.emitAlloca _ _) fun _ _ => bind (lowerDims hpart dims) fun _ _ _ => ?_
  refine onlyIf (.emitPushIndex _) ?_
  refine bind guidesWanted fun on _ heq => ?_
  subst heq
  exact onlyIf (.emitGuides _) (pure rfl)

theorem lowerRange (first last : Node) (step : Option Node) (span : Span) :
    Agree Eq (lowerRange part first last step span) (lowerRange part first last step span) := by
  refine bind (hpart first) fun _ _ _ => bind (hpart last) fun _ _ _ => ?_
  cases step with
  | none => exact .first (.emitPush _ _ _) fun _ _ => .first (.emit rfl _) fun _ _ => pure rfl
  | some step => exact bind (hpart step) fun _ _ _ => .first (.emit rfl _) fun _ _ => pure rfl

theorem lowerUnary (op : UnaryOperator) (operand : Node) (span : Span) :
    Agree Eq (lowerUnary part op operand span) (lowerUnary part op operand span) := by
  refine bind (hpart operand) fun type _ heq => bind classScope fun cls _ hcls => ?_
  subst heq hcls
  refine first (.emitPop _ _ _) fun _ _ => first (.emit (OpCode.isAlloc_ofUnary op) _) fun _ _ => ?_
  exact first (.emitPush _ _ _) fun _ _ => pure rfl

theorem lowerBinary (left : Node) (op : Operator) (right : Node) (span : Span) :
    Agree Eq (lowerBinary part left op right span) (lowerBinary part left op right span) := by
  unfold Lowering.lowerBinary
  cases hop : OpCode.ofBinary? op with
  | none => exact halt _ _ _
  | some opcode =>
    refine bind (hpart left) fun _ _ hleft => bind (hpart right) fun _ _ hright => ?_
    refine bind classScope fun _ _ hcls => ?_
    subst hleft hright hcls
    refine first (.emitPop _ _ _) fun _ _ => first (.emitPop _ _ _) fun _ _ => ?_
    exact first (.emit (OpCode.isAlloc_ofBinary hop) _) fun _ _ => first (.emitPush _ _ _) fun _ _ => pure rfl

theorem lowerGroup (inner : Node) (dims : List Node) (guides : List Guide) :
    Agree Eq (lowerGroup part inner dims guides) (lowerGroup part inner dims guides) := by
  refine ite (hpart _) (bind (hpart inner) fun type _ heq => bind (lowerDims hpart dims) fun _ _ _ => ?_)
  subst heq
  exact onlyIf (.emitPushIndex _) (pure rfl)

theorem lowerNode (n : Node) : Agree Eq (lowerNode part n) (lowerNode part n) := by
  cases n with
  | identifier ident => exact lowerChain hpart [.identifier ident] _
  | call call => exact lowerChain hpart [.call call] _
  | member left right op lastFactor span =>
    unfold Lowering.lowerNode Lowering.chainSegments
    dsimp only
    cases (Node.member left right op lastFactor span).segments with
    | ok l => exact lowerChain hpart l span
    | error e => exact bind (Q := fun _ _ => False) (halt _ _ _) nofun
  | literal kind source span => exact lowerLiteral kind source span _
  | list items dims guides span => exact lowerList hpart items dims guides
  | range first last step span => exact lowerRange hpart first last step span
  | unary op operand span => exact lowerUnary hpart op operand span
  | binary left op right span => exact lowerBinary hpart left op right span
  | group inner dims guides span => exact lowerGroup hpart inner dims guides
  | defaultArg span => exact first (.emitPush _ _ _) fun _ _ => pure rfl
  | dynamic span => exact first (.emitPush _ _ _) fun _ _ => pure rfl
  | _ => exact halt _ _ _

end

theorem expressionWithin (depth : Nat) (n : Node) : Agree Eq (expressionWithin depth n) (expressionWithin depth n) := by
  induction depth generalizing n with
  | zero => exact defect _
  | succ depth ih => exact lowerNode ih n

/-- An expression has the same type wherever names stand for the same, the options being the same. -/
theorem expression (n : Node) : Agree Eq (expression n) (expression n) := expressionWithin _ n

end Agree

end Lowering

end Diglot
