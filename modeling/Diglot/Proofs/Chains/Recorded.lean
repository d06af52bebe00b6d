import Diglot.Proofs.Chains.Resolved
import Mathlib.Data.List.Forall2

/-! # The path that a chain records

`chainCursor` lowers a chain up to the point where it is recorded: what is recorded is the path of the cursor
(`lowerChain_eq`). Each segment adds at most one segment to the path, with its own name and its own literal
subscripts (`Node.ShownBy`); a chain that is stopped, or looked up at run time, adds none from there on. So the
path belongs to a front part of the chain (`chainCursor_shows`).
-/

set_option autoImplicit false

namespace Diglot

/-- The segment of a path stands for the segment of a chain: it has its name, and all of its literal subscripts
or none. -/
def Node.ShownBy (dialect : Dialect) : Node → Segment → Prop
  | .identifier ident, x =>
    x.kind = .symbol ∧ x.name = ident.name ∧
      (x.dims = [] ∨ x.dims = Lowering.literalDims dialect ident.dims)
  | .call invocation, x =>
    (x.kind = .method → x.name = invocation.name) ∧
      (x.dims = [] ∨ x.dims = Lowering.literalDims dialect invocation.dims)
  | _, _ => False

namespace Lowering

variable {α β : Type} {f : Frame} {s t : State} {c d : Cursor} {part : LowerPart}

/-! ## Up to the record -/

/-- Lowers the segments of a chain, and puts them together. -/
def chainCursor (part : LowerPart) (segments : List Node) (span : Span) : Lower Cursor := do
  let segments := segments.map Node.unwrap
  if ← guidesWanted then emitGuides ((segments.getLast?.map Node.guides).getD [])
  let c ← lowerSegments part true segments (.start (segments.length == 1))
  if 1 < c.depth then
    let _ ← emitPushlist c.depth c.afterCall span
  return c

/-- The path of the cursor is what is recorded. -/
theorem lowerChain_eq (part : LowerPart) {segments : List Node} (hne : segments ≠ []) (span : Span) :
    lowerChain part segments span = (do
      let c ← chainCursor part segments span
      recordRead c.path c.hasCall
      return if c.isStopped then .null else c.type) := by
  unfold lowerChain chainCursor
  dsimp only
  rw [if_neg (by simpa using hne), bind_assoc]
  congr 1
  funext on
  have hsegments : (do
      let c ← lowerSegments part true (segments.map Node.unwrap)
        (.start ((segments.map Node.unwrap).length == 1))
      if 1 < c.depth then
        let _ ← emitPushlist c.depth c.afterCall span
      recordRead c.path c.hasCall
      return if c.isStopped then .null else c.type : Lower Ty) = (do
      let c ← (do
        let c ← lowerSegments part true (segments.map Node.unwrap)
          (.start ((segments.map Node.unwrap).length == 1))
        if 1 < c.depth then
          let _ ← emitPushlist c.depth c.afterCall span
        return c)
      recordRead c.path c.hasCall
      return if c.isStopped then .null else c.type) := by
    rw [bind_assoc]
    congr 1
    funext c
    by_cases hlong : 1 < c.depth
    · simp only [if_pos hlong, bind_assoc, pure_bind]
    · simp only [if_neg hlong, pure_bind]
  cases on with
  | true => rw [if_pos rfl, if_pos rfl, bind_assoc, hsegments]
  | false => exact hsegments

/-! ## What a run returns -/

/-- Whatever a run in the frame returns satisfies `Q`. -/
abbrev Returns (f : Frame) (m : Lower α) (Q : α → Prop) : Prop := Sparing (fun _ => True) f m Q

namespace Returns

variable {Q : α → Prop} {R : β → Prop}

theorem ok {m : Lower α} {a : α} (h : Returns f m Q) (hrun : m f s = .ok a t) : Q a := (h s trivial).2 a t hrun

theorem any (m : Lower α) : Returns f m fun _ => True := fun _ _ => ⟨trivial, fun _ _ _ => trivial⟩

theorem after {m : Lower α} {k : α → Lower β} (hk : ∀ a, Returns f (k a) R) : Returns f (m >>= k) R :=
  .bind (any m) fun a _ => hk a

theorem conseq {Q' : α → Prop} {m : Lower α} (h : Returns f m Q) (hQ : ∀ a, Q a → Q' a) : Returns f m Q' :=
  fun s hs => ⟨trivial, fun a t hrun => hQ a ((h s hs).2 a t hrun)⟩

theorem halt (issue : Issue) (message : String) (span : Span) :
    Returns f (Lowering.halt issue message span : Lower α) Q := fun _ _ => ⟨trivial, fun _ _ hrun => by cases hrun⟩

theorem ofOk {m : Lower α} (h : ∀ s a t, m f s = .ok a t → Q a) : Returns f m Q :=
  fun s _ => ⟨trivial, fun a t hrun => h s a t hrun⟩

end Returns

/-! ## One segment -/

/-- From `c` to `d` the segment `n` was lowered: it is shown by the path, or the path ends before it. -/
inductive Cursor.Takes (dialect : Dialect) (n : Node) (c d : Cursor) : Prop where
  | shown {x : Segment} : n.ShownBy dialect x → d.path = (c.track x).path → d.isLate = c.isLate →
      c.Takes dialect n d
  | ended : d.path = c.path → (c.isLate = true → d.isLate = true) → (d.isStopped = true ∨ d.isLate = true) →
      c.Takes dialect n d

/-- From `c` to `d` a call was lowered as such: a segment without a symbol shows it, or the chain is stopped. -/
inductive Cursor.Calls (dialect : Dialect) (call : Call) (c d : Cursor) : Prop where
  | shown {x : Segment} : x.symbol = none → (Node.call call).ShownBy dialect x → d.path = (c.track x).path →
      d.isLate = c.isLate → c.Calls dialect call d
  | stopped : d.path = c.path → d.isLate = c.isLate → d.isStopped = true → c.Calls dialect call d

theorem Cursor.Calls.takes {dialect : Dialect} {call : Call} (h : c.Calls dialect call d) :
    c.Takes dialect (.call call) d := by
  cases h with
  | shown _ hx hpath hlate => exact .shown hx hpath hlate
  | stopped hpath hlate hstopped => exact .ended hpath hlate.trans (.inl hstopped)

namespace Returns

theorem stopChain (n : Node) (span : Span) : Returns f (stopChain c span) (c.Takes f.dialect n) :=
  after fun _ => .pure (.ended rfl id (.inl rfl))

theorem stopChain_shown {n : Node} {x : Segment} (hx : n.ShownBy f.dialect x) (span : Span) :
    Returns f (Lowering.stopChain (c.track x) span) (c.Takes f.dialect n) :=
  after fun _ => .pure (.shown hx rfl (Cursor.isLate_track c x))

section
variable (ident : Identifier)

theorem lowerThis : Returns f (lowerThis ident c) (c.Takes f.dialect (.identifier ident)) :=
  .ofOk fun _ _ _ hrun => by
    obtain rfl := lowerThis_ok hrun
    exact .shown (x := .ofName ident.name none f.scope.classScope) ⟨rfl, rfl, .inl rfl⟩ (by simp) (by simp)

theorem lowerClassName (cls : Nat) :
    Returns f (lowerClassName ident c cls) (c.Takes f.dialect (.identifier ident)) :=
  .ofOk fun _ _ _ hrun => by
    obtain rfl := lowerClassName_ok hrun
    exact .shown (x := .ofName ident.name none (some cls)) ⟨rfl, rfl, .inl rfl⟩ rfl (by simp)

theorem lowerInaccessible : Returns f (lowerInaccessible ident c) (c.Takes f.dialect (.identifier ident)) := by
  refine after fun _ => after fun v => ?_
  cases hhidden : v.hiddenMember? ident.name c with
  | none => exact stopChain _ _
  | some x =>
    obtain ⟨m, -, rfl⟩ := Option.map_eq_some_iff.mp hhidden
    exact stopChain_shown (n := .identifier ident) ⟨rfl, rfl, .inl rfl⟩ _

theorem lowerSymbol (r : SymbolRef) :
    Returns f (lowerSymbol part ident c r) (c.Takes f.dialect (.identifier ident)) := by
  refine after fun symbol => ?_
  split
  · exact after fun _ => after fun _ => stopChain _ _
  · have hend : c.Takes f.dialect (.identifier ident)
        { c.track { Segment.ofName ident.name (some r) symbol.classScope with
            dims := literalDims f.dialect ident.dims } with
          type := symbol.type.subscripted ident.dims.length
          depth := (c.track { Segment.ofName ident.name (some r) symbol.classScope with
            dims := literalDims f.dialect ident.dims }).depth + 1
          anchor := none } := .shown ⟨rfl, rfl, .inr rfl⟩ rfl (by simp)
    refine after fun _ => .withFrame (after fun _ => .ite (after fun _ => .pure hend) (.ite ?_ ?_))
    · exact after fun _ => after fun _ => .pure hend
    · exact after fun _ => .pure hend

theorem registerLateVariable (name : String) :
    Returns f (registerLateVariable name c) fun p => p.2.path = c.path ∧ p.2.isLate = c.isLate := by
  refine .withSession fun s _ => ?_
  cases c.lateEntry with
  | none => exact .withFrame (after fun _ => .pure ⟨rfl, rfl⟩)
  | some i => exact .ite (after fun _ => .pure ⟨rfl, rfl⟩) (.withFrame (after fun _ => .pure ⟨rfl, rfl⟩))

theorem lowerLate : Returns f (lowerLate part ident c) fun d => d.path = c.path ∧ d.isLate = true := by
  have hrest : Returns f (finishLate part ident c)
      fun d => d.path = c.path ∧ d.isLate = true := by
    refine .bind (registerLateVariable ident.name) fun p hp => after fun _ => ?_
    refine .ite (after fun _ => ?_) ?_
    · exact after fun _ => after fun _ => .pure ⟨hp.1, rfl⟩
    · exact after fun _ => after fun _ => .pure ⟨hp.1, rfl⟩
  exact .ite (after fun _ => hrest) hrest

theorem lowerIdentifier : Returns f (lowerIdentifier part ident c) (c.Takes f.dialect (.identifier ident)) := by
  refine .ite (lowerThis ident) (after fun v => ?_)
  cases v.segmentTarget ident.name c with
  | symbol r => exact lowerSymbol ident r
  | cls id => exact lowerClassName ident id
  | inaccessible => exact lowerInaccessible ident
  | arrayReceiver => exact stopChain _ _
  | unbound =>
    refine .ite (after fun _ => stopChain _ _) ((lowerLate ident).conseq fun d hd => ?_)
    exact .ended hd.1 (fun _ => hd.2) (.inr hd.2)

end

section
variable (call : Call)

theorem lowerInvocation (target : Option ProcRef) :
    Returns f (lowerInvocation part call c target) (c.Calls f.dialect call) := by
  have hbehind (type : Ty) {x : Segment} (hsymbol : x.symbol = none)
      (hname : x.kind = .method → x.name = call.name) :
      Returns f (finishInvocation part call c target (type, x)) (c.Calls f.dialect call) := by
    have hend (d : Cursor) (hpath : d.path = (c.track { x with dims := literalDims f.dialect call.dims }).path)
        (hlate : d.isLate = c.isLate) : c.Calls f.dialect call d :=
      .shown (x := { x with dims := literalDims f.dialect call.dims }) hsymbol ⟨hname, .inr rfl⟩ hpath hlate
    refine after fun _ => .ite (after fun _ => .withFrame (.pure ?_)) (.withFrame (.pure ?_))
    · exact hend _ rfl (by simp)
    · exact hend _ rfl (by simp)
  refine after fun _ => ?_
  cases target with
  | some r =>
    have hknown : Returns f (lowerKnownCall call c r) fun p =>
        p.2.symbol = none ∧ (p.2.kind = .method → p.2.name = call.name) := by
      refine ofOk fun s p t hrun => ?_
      obtain ⟨q, -, rfl⟩ := lowerKnownCall_ok hrun
      refine ⟨Tracks.symbol_callSegment q call.name, fun hmethod => ?_⟩
      unfold callSegment at hmethod ⊢
      split at hmethod
      · cases hmethod
      · rfl
    exact .bind hknown fun p hp => hbehind p.1 hp.1 hp.2
  | none =>
    have hlate : Returns f (lowerLateCall call c) fun p => p.2 = .ofMethod call.name :=
      .ite (after fun _ => after fun _ => after fun _ => .pure rfl) (after fun _ => after fun _ => .pure rfl)
    refine .bind hlate fun p hp => ?_
    exact hbehind p.1 (by rw [hp]; rfl) fun _ => by rw [hp]; rfl

theorem lowerResolvedCall : Returns f (lowerResolvedCall part call c) (c.Calls f.dialect call) := by
  have hstop (span : Span) : Returns f (Lowering.stopChain c span) (c.Calls f.dialect call) :=
    after fun _ => .pure (.stopped rfl rfl rfl)
  refine after fun v => ?_
  cases v.callTarget call.name call.args.length c with
  | procedure r => exact lowerInvocation call (some r)
  | unresolved => exact lowerInvocation call none
  | nonStatic => exact after fun _ => hstop _
  | inaccessible => exact after fun _ => hstop _
  | arrayReceiver => exact hstop _

theorem lowerCall : Returns f (lowerCall part call c) (c.Takes f.dialect (.call call)) := by
  refine .withSession fun s _ => .withReader (after fun v => ?_)
  generalize accessedProperty? v call c = property
  cases property with
  | some property =>
    -- The name of the member stands in the path for the name of its accessor.
    refine (lowerIdentifier ⟨property, call.dims, [], call.span⟩).conseq fun d hd => ?_
    cases hd with
    | shown hx hpath hlate =>
      refine .shown ⟨fun hmethod => ?_, hx.2.2⟩ hpath hlate
      cases hx.1.symm.trans hmethod
    | ended hpath hlate hend => exact .ended hpath hlate hend
  | none => exact (lowerResolvedCall call).conseq fun d hd => hd.takes

end

theorem lowerSegment (isRoot : Bool) (n : Node) :
    Returns f (lowerSegment part isRoot n c) (c.Takes f.dialect n) := by
  unfold Lowering.lowerSegment
  split
  · exact lowerIdentifier _
  · exact lowerCall _
  · exact .ite (after fun _ => .pure (.ended rfl (fun _ => rfl) (.inr rfl))) (halt _ _ _)

/-! ## A chain -/

/-- What the segments of a chain add to a path belongs to the first of them, one by one. Once the chain is stopped or
looked up at run time it stays so, and they add nothing. -/
theorem lowerSegments (isRoot : Bool) (segments : List Node) :
    Returns f (lowerSegments part isRoot segments c) fun d =>
      ∃ front p, front <+: segments ∧ List.Forall₂ (Node.ShownBy f.dialect) front p ∧ d.path = c.path ++ p ∧
        (c.isStopped = true ∨ c.isLate = true → p = [] ∧ (d.isStopped = true ∨ d.isLate = true)) := by
  induction segments generalizing c isRoot with
  | nil => exact .pure ⟨[], [], List.prefix_refl _, .nil, by simp, fun hends => ⟨rfl, hends⟩⟩
  | cons n rest ih =>
    have hnone {d : Cursor} (hpath : d.path = c.path) (hends : d.isStopped = true ∨ d.isLate = true) :
        ∃ front p, front <+: n :: rest ∧ List.Forall₂ (Node.ShownBy f.dialect) front p ∧
          d.path = c.path ++ p ∧
            (c.isStopped = true ∨ c.isLate = true → p = [] ∧ (d.isStopped = true ∨ d.isLate = true)) :=
      ⟨[], [], List.nil_prefix, .nil, by simp [hpath], fun _ => ⟨rfl, hends⟩⟩
    unfold Lowering.lowerSegments
    split
    · next hstopped => exact .pure (hnone rfl (.inl hstopped))
    · next hgoes =>
      refine .bind (lowerSegment isRoot n) fun d hd => (ih false).conseq fun e he => ?_
      obtain ⟨front, p, hfront, hshown, hpath, hend⟩ := he
      cases hd with
      | ended hsame hlate hends =>
        -- Behind a segment that is not shown the path stays as it is.
        obtain ⟨rfl, hends⟩ := hend hends
        rw [List.append_nil] at hpath
        exact hnone (hpath.trans hsame) hends
      | @shown x hx hone hsame =>
        by_cases hlate : c.isLate = true
        · obtain ⟨rfl, hends⟩ := hend (.inr (hsame.trans hlate))
          rw [List.append_nil] at hpath
          exact hnone (hpath.trans (hone.trans (by simp [hlate]))) hends
        · refine ⟨n :: front, x :: p, (List.prefix_cons_inj n).mpr hfront, .cons hx hshown, ?_, fun h => ?_⟩
          · rw [hpath, hone]
            simp [hlate]
          · exact absurd h (by simp [hgoes, hlate])

end Returns

/-- Around its segments, lowering a chain changes no names. -/
theorem chainCursor_ok {segments : List Node} {span : Span} (hrun : chainCursor part segments span f s = .ok c t) :
    ∃ u w, Kept true s u ∧
      lowerSegments part true (segments.map Node.unwrap) (.start (segments.length == 1)) f u = .ok c w := by
  have hsegments {u : State} (hu : Kept true s u) (hrun : (do
      let c ← lowerSegments part true (segments.map Node.unwrap)
        (.start ((segments.map Node.unwrap).length == 1))
      if 1 < c.depth then
        let _ ← emitPushlist c.depth c.afterCall span
      return c : Lower Cursor) f u = .ok c t) :
      ∃ u w, Kept true s u ∧
        lowerSegments part true (segments.map Node.unwrap) (.start (segments.length == 1)) f u = .ok c w := by
    rw [List.length_map] at hrun
    obtain ⟨d, w, hwalk, hrun⟩ := bind_eq_ok.mp hrun
    refine ⟨u, w, hu, ?_⟩
    rw [run_ite] at hrun
    split at hrun
    · obtain ⟨_, x, -, hrun⟩ := bind_eq_ok.mp hrun
      cases hrun
      exact hwalk
    · cases hrun
      exact hwalk
  obtain ⟨on, u, hwanted, hrun⟩ := bind_eq_ok.mp hrun
  have hguides : Tame true false guidesWanted := .guidesWanted
  have hu := hguides.keeps_ok hwanted
  rw [run_ite] at hrun
  split at hrun
  · obtain ⟨_, w, hemit, hrun⟩ := bind_eq_ok.mp hrun
    have hemits : Tame true false
        (emitGuides (((segments.map Node.unwrap).getLast?.map Node.guides).getD [])) := .emitGuides _
    exact hsegments (hu.trans (hemits.keeps_ok hemit)) hrun
  · exact hsegments hu hrun

/-- The recorded path belongs to a front part of the chain. -/
theorem chainCursor_shows {segments : List Node} {span : Span}
    (hrun : chainCursor part segments span f s = .ok c t) :
    ∃ front, front <+: segments.map Node.unwrap ∧ List.Forall₂ (Node.ShownBy f.dialect) front c.path := by
  obtain ⟨u, w, -, hsegments⟩ := chainCursor_ok hrun
  obtain ⟨front, p, hfront, hshown, hpath, -⟩ := (Returns.lowerSegments true _).ok hsegments
  obtain rfl : c.path = p := hpath
  exact ⟨front, hfront, hshown⟩

end Lowering

end Diglot
