import Diglot.Proofs.Course.Expression
import Diglot.Proofs.Chains.InStep

/-! # Names that are looked up in the scope

A name is looked up among variables and classes where it stands alone or begins a chain; behind a dot it is
a member. `Node.roots` are the names of the first kind in an expression, those in arguments and subscripts
included.
-/

set_option autoImplicit false

namespace Diglot

mutual

/-- The names that an expression looks up in its scope. `isRoot` tells that it stands behind no dot. -/
def Node.roots : Bool → Node → List String
  | isRoot, .identifier i => i.roots isRoot
  | isRoot, .member left right _ _ _ => left.roots isRoot ++ right.roots false
  | _, .call c => c.roots
  | _, .list items dims _ _ => Node.allRoots items ++ Node.allRoots dims
  | _, .range first last step _ => first.roots true ++ last.roots true ++ Node.optRoots step
  | _, .unary _ operand _ => operand.roots true
  | _, .binary left _ right _ => left.roots true ++ right.roots true
  | isRoot, .group inner dims _ _ => inner.roots isRoot ++ Node.allRoots dims
  | _, _ => []

/-- The names that the expressions of a list look up. -/
def Node.allRoots : List Node → List String
  | [] => []
  | n :: rest => n.roots true ++ Node.allRoots rest

/-- The names that a part looks up, if it is there. -/
def Node.optRoots : Option Node → List String
  | none => []
  | some n => n.roots true

/-- The name itself, unless it stands behind a dot, and those of its subscripts. -/
def Identifier.roots : Bool → Identifier → List String
  | isRoot, ⟨name, dims, _, _⟩ => (if isRoot then [name] else []) ++ Node.allRoots dims

/-- The names in the arguments and subscripts. -/
def Call.roots : Call → List String
  | ⟨_, args, dims, _, _⟩ => Node.allRoots args ++ Node.allRoots dims

end

/-- The names that the segments of a chain look up. -/
def Node.chainRoots : Bool → List Node → List String
  | _, [] => []
  | isRoot, segment :: rest => segment.roots isRoot ++ Node.chainRoots false rest

namespace Node

variable {name : String}

theorem roots_identifier (isRoot : Bool) (i : Identifier) :
    (identifier i).roots isRoot = (if isRoot then [i.name] else []) ++ allRoots i.dims := by
  cases i
  simp only [roots, Identifier.roots]

theorem roots_call (isRoot : Bool) (c : Call) :
    (call c).roots isRoot = allRoots c.args ++ allRoots c.dims := by
  cases c
  simp only [roots, Call.roots]

theorem mem_allRoots {l : List Node} : name ∈ allRoots l ↔ ∃ n ∈ l, name ∈ n.roots true := by
  induction l with
  | nil => simp [allRoots]
  | cons n rest ih => simp [allRoots, ih]

/-- Behind a dot an expression looks no more names up than elsewhere. -/
theorem roots_of_behind : (n : Node) → name ∈ n.roots false → name ∈ n.roots true
  | .identifier i, h => by
    rw [roots_identifier] at h ⊢
    exact List.mem_append_right _ (by simpa using h)
  | .member left right _ _ _, h => by
    rw [roots, List.mem_append] at h ⊢
    exact h.imp_left (roots_of_behind left)
  | .group inner dims _ _, h => by
    rw [roots, List.mem_append] at h ⊢
    exact h.imp_left (roots_of_behind inner)
  | .call c, h => by
    rwa [roots_call] at h ⊢
  | .list .., h | .range .., h | .unary .., h | .binary .., h => by
    rwa [roots] at h ⊢
  | .literal .., h | .defaultArg _, h | .dynamic _, h | .assign .., h | .ret .., h | .branch .., h
  | .loop .., h | .breakLoop _, h | .continueLoop _, h | .block .., h | .function _, h | .classDecl _, h
  | .varDecl _, h => by
    simp [roots] at h

theorem mem_chainRoots_of_mem {l : List Node} {n : Node} (hn : n ∈ l) (h : name ∈ n.roots false) :
    name ∈ chainRoots true l := by
  have hbehind (l : List Node) (hn : n ∈ l) : name ∈ chainRoots false l := by
    induction l with
    | nil => cases hn
    | cons m rest ih =>
      rw [chainRoots, List.mem_append]
      obtain rfl | hn := List.mem_cons.mp hn
      · exact .inl h
      · exact .inr (ih hn)
  cases l with
  | nil => cases hn
  | cons m rest =>
    rw [chainRoots, List.mem_append]
    obtain rfl | hn := List.mem_cons.mp hn
    · exact .inl (roots_of_behind n h)
    · exact .inr (hbehind rest hn)

theorem mem_roots_ungroup {n : Node} {dims : List Node} {guides : List Guide} {isRoot : Bool}
    (h : name ∈ (n.ungroup dims guides).roots isRoot) : name ∈ n.roots isRoot ∨ name ∈ allRoots dims := by
  unfold ungroup at h
  split at h
  · exact .inl h
  · cases n with
    | identifier i =>
      cases i
      simp only [setSubscripts?, Option.getD_some, roots, Identifier.roots, List.mem_append] at h ⊢
      exact h.imp_left .inl
    | call c =>
      cases c
      simp only [setSubscripts?, Option.getD_some, roots, Call.roots, List.mem_append] at h ⊢
      exact h.imp_left .inl
    | list items ds gs span =>
      simp only [setSubscripts?, Option.getD_some, roots, List.mem_append] at h ⊢
      exact h.imp_left .inl
    | group inner ds gs span =>
      simp only [setSubscripts?, Option.getD_some, roots, List.mem_append] at h ⊢
      exact h.imp_left .inl
    | _ => exact .inl h

theorem mem_roots_unwrap {n : Node} {isRoot : Bool} (h : name ∈ n.unwrap.roots isRoot) :
    name ∈ n.roots isRoot := by
  fun_induction unwrap n with
  | case1 inner dims guides span hinner ih =>
    rw [roots, List.mem_append]
    exact (mem_roots_ungroup h).imp_left ih
  | case2 => exact h
  | case3 => exact h

theorem chainRoots_append {l m : List Node} {isRoot : Bool} (hl : l ≠ []) :
    chainRoots isRoot (l ++ m) = chainRoots isRoot l ++ chainRoots false m := by
  cases l with
  | nil => exact absurd rfl hl
  | cons n rest =>
    have hrest (rest : List Node) : chainRoots false (rest ++ m) = chainRoots false rest ++ chainRoots false m := by
      induction rest with
      | nil => rfl
      | cons n rest ih => simp only [List.cons_append, chainRoots, ih, List.append_assoc]
    simp only [List.cons_append, chainRoots, hrest, List.append_assoc]

/-- A chain looks up what its segments do. -/
theorem chainRoots_segments {n : Node} {l : List Node} {isRoot : Bool} (h : n.segments = .ok l) :
    chainRoots isRoot l = n.roots isRoot := by
  fun_induction segments n generalizing l isRoot with
  | case1 => cases h
  | case2 => cases h
  | case3 left right lastFactor span ls hls rs hrs ihl ihr =>
    cases h
    rw [chainRoots_append (segments_ne_nil hls), ihl hls, ihr hrs, roots]
  | case4 => cases h
  | case5 n hn =>
    cases h
    simp [chainRoots]

theorem mem_chainRoots_unwrap {l : List Node} {isRoot : Bool}
    (h : name ∈ chainRoots isRoot (l.map unwrap)) : name ∈ chainRoots isRoot l := by
  induction l generalizing isRoot with
  | nil => exact h
  | cons n rest ih =>
    rw [List.map_cons, chainRoots, List.mem_append] at h
    rw [chainRoots, List.mem_append]
    exact h.imp mem_roots_unwrap ih

end Node

end Diglot

/-! ## Segments of chains in step

A segment is lowered in step from cursors that lead to it alike, whether it stands alone, behind the others or
behind a made-up variable. The cursors then lead to the next segment alike, and the paths that they show have
grown in the same way (`Cursor.Apace`).
-/

namespace Diglot.Lowering

variable {anchor : Option Nat} {c c' d d' : Cursor} {part : LowerPart} {α β : Type}

/-! ### Cursors -/

/-- From `c` and `c'` the cursors `d` and `d'` were reached, over the same segments. -/
structure Cursor.Apace (c c' d d' : Cursor) : Prop where
  similar : d.Similar d'
  behind : d.depth ≠ 0
  path : ∃ p, d.path = c.path ++ p ∧ d'.path = c'.path ++ p

/-- The same as `Apace`, but the segments may be none at all. -/
structure Cursor.Together (c c' d d' : Cursor) : Prop where
  similar : d.Similar d'
  path : ∃ p, d.path = c.path ++ p ∧ d'.path = c'.path ++ p

namespace Cursor

theorem Together.refl (h : c.Similar c') : Together c c' c c' := ⟨h, [], by simp⟩

theorem Apace.andThen {e e' : Cursor} (h : Apace c c' d d') (h' : Together d d' e e') : Together c c' e e' := by
  obtain ⟨p, hp, hp'⟩ := h.path
  obtain ⟨q, hq, hq'⟩ := h'.path
  exact ⟨h'.similar, p ++ q, by rw [hq, hp, List.append_assoc], by rw [hq', hp', List.append_assoc]⟩

theorem Similar.track (h : c.Similar c') (x : Segment) : (c.track x).Similar (c'.track x) := by
  unfold Cursor.track
  rw [h.isLate]
  split
  · exact h
  · exact ⟨h.type, h.anchor, h.depth, rfl, h.lateEntry, h.isStopped⟩

theorem Similar.track_path (h : c.Similar c') (x : Segment) :
    ∃ p, (c.track x).path = c.path ++ p ∧ (c'.track x).path = c'.path ++ p := by
  unfold Cursor.track
  rw [h.isLate]
  split
  · exact ⟨[], by simp⟩
  · exact ⟨[x], rfl, rfl⟩

end Cursor

namespace InStep

variable {Q : α → β → Prop}

/-! ### Late-bound names -/

theorem changeLateVariables (k : Array LateVariable → Array LateVariable) :
    InStep anchor (fun _ _ => True) (modifySession fun s => { s with lateVariables := k s.lateVariables })
      (modifySession fun s => { s with lateVariables := k s.lateVariables }) := by
  refine change (fun s t h => ?_) (fun _ => ⟨rfl, rfl, rfl⟩) (fun _ => ⟨rfl, rfl, rfl, rfl, rfl, rfl⟩) fun _ => rfl
  exact ⟨h.beside.congr ⟨rfl, rfl, rfl, rfl, rfl, rfl⟩ ⟨rfl, rfl, rfl, rfl, rfl, rfl⟩, h.options, h.file,
    congrArg k h.lateVariables, h.lateFunctions, h.diagnostics⟩

theorem registerLateVariable (name : String) (h : c'.lateEntry = c.lateEntry) :
    InStep anchor (fun p q => ∃ i e, p = (i, { c with lateEntry := e }) ∧ q = (i, { c' with lateEntry := e }))
      (registerLateVariable name c) (registerLateVariable name c') := by
  refine withSession fun s t hst => ?_
  -- The tables have the same size, so that both enter the same position.
  rw [hst.lateVariables, h]
  cases he : c.lateEntry with
  | none =>
    refine withFrame fun f => bind (changeLateVariables fun l => l.push _) fun _ _ _ => pure ?_
    exact ⟨_, some _, rfl, rfl⟩
  | some i =>
    refine ite (bind (changeLateVariables fun l => l.modify i _) fun _ _ _ => pure ⟨i, some i, ?_, ?_⟩) ?_
    · rw [← he]
    · rw [← he, ← h]
    · refine withFrame fun f => bind (changeLateVariables fun l => l.push _) fun _ _ _ => pure ?_
      exact ⟨_, some _, rfl, rfl⟩

theorem changeLateFunctions (k : Array LateFunction → Array LateFunction) :
    InStep anchor (fun _ _ => True) (modifySession fun s => { s with lateFunctions := k s.lateFunctions })
      (modifySession fun s => { s with lateFunctions := k s.lateFunctions }) := by
  refine change (fun s t h => ?_) (fun _ => ⟨rfl, rfl, rfl⟩) (fun _ => ⟨rfl, rfl, rfl, rfl, rfl, rfl⟩) fun _ => rfl
  exact ⟨h.beside.congr ⟨rfl, rfl, rfl, rfl, rfl, rfl⟩ ⟨rfl, rfl, rfl, rfl, rfl, rfl⟩, h.options, h.file,
    h.lateVariables, congrArg k h.lateFunctions, h.diagnostics⟩

theorem registerLateFunction (name : String) (arity : Nat) :
    InStep anchor Eq (registerLateFunction name arity) (registerLateFunction name arity) := by
  refine withSession fun s t hst => withFrame fun f => ?_
  rw [hst.lateFunctions]
  exact bind (changeLateFunctions fun l => l.push _) fun _ _ _ => pure rfl

theorem warnUnbound (name : String) (span : Span) :
    InStep anchor (fun _ _ => True) (warnUnbound name span) (warnUnbound name span) := by
  refine withSight fun f s t h _ _ => ?_
  rw [Sight.visibleNames_beside h f anchor]
  exact report _ _ _

theorem warnFunctionNotFound (name : String) (arity : Nat) (span : Span) :
    InStep anchor (fun _ _ => True) (warnFunctionNotFound name arity span)
      (warnFunctionNotFound name arity span) := by
  refine withSight fun f s t h _ _ => ?_
  rw [Sight.visibleProcedures_beside h f anchor]
  exact report _ _ _

/-! ### Names -/

variable (hc : c.Similar c')
include hc

theorem stopChain (span : Span) :
    InStep anchor (Cursor.Apace c c') (stopChain c span) (stopChain c' span) := by
  refine bind (silent (.emitPush _ _ _) (.emitPush _ _ _)) fun _ _ _ => pure ?_
  exact ⟨⟨rfl, hc.anchor, by simp, hc.isLate, hc.lateEntry, rfl⟩, by simp, [], by simp⟩

theorem lowerThis (ident : Identifier) :
    InStep anchor (Cursor.Apace c c') (lowerThis ident c) (lowerThis ident c') := by
  refine bind classScope fun cls _ heq => ?_
  subst heq
  have hmoved : ({ c with type := objectType cls, depth := c.depth + 1 } : Cursor).Similar
      { c' with type := objectType cls, depth := c'.depth + 1 } :=
    ⟨rfl, hc.anchor, by simp, hc.isLate, hc.lateEntry, hc.isStopped⟩
  have hend : InStep anchor (Cursor.Apace c c')
      (Pure.pure (({ c with type := objectType cls, depth := c.depth + 1 } : Cursor).track
        (.ofName ident.name none cls)) : Lower Cursor)
      (Pure.pure (({ c' with type := objectType cls, depth := c'.depth + 1 } : Cursor).track
        (.ofName ident.name none cls))) := by
    refine pure ⟨hmoved.track _, ?_, hmoved.track_path _⟩
    unfold Cursor.track
    split <;> simp
  refine iteLeft (bindLeft (.emitPush _ _ _) fun _ => ?_) (bindLeft (.emitPushm _ _ _) fun _ => ?_) <;>
    exact iteRight (bindRight (.emitPush _ _ _) fun _ => hend) (bindRight (.emitPushm _ _ _) fun _ => hend)

theorem lowerClassName (ident : Identifier) (cls : Nat) :
    InStep anchor (Cursor.Apace c c') (lowerClassName ident c cls) (lowerClassName ident c' cls) := by
  have htracked := hc.track (.ofName ident.name none (some cls))
  have hend : InStep anchor (Cursor.Apace c c')
      (Pure.pure { c.track (.ofName ident.name none (some cls)) with
        type := .scalar cls, depth := (c.track (.ofName ident.name none (some cls))).depth + 1
        anchor := some cls } : Lower Cursor)
      (Pure.pure { c'.track (.ofName ident.name none (some cls)) with
        type := .scalar cls, depth := (c'.track (.ofName ident.name none (some cls))).depth + 1
        anchor := some cls }) :=
    pure ⟨⟨rfl, rfl, by simp, htracked.isLate, htracked.lateEntry, htracked.isStopped⟩, by simp, hc.track_path _⟩
  refine iteLeft (bindLeft (.emitPush _ _ _) fun _ => ?_) (bindLeft (.emitPushm _ _ _) fun _ => ?_) <;>
    exact iteRight (bindRight (.emitPush _ _ _) fun _ => hend) (bindRight (.emitPushm _ _ _) fun _ => hend)

theorem lowerInaccessible (ident : Identifier) :
    InStep anchor (Cursor.Apace c c') (lowerInaccessible ident c) (lowerInaccessible ident c') := by
  refine bind (report _ _ _) fun _ _ _ => withSight fun f s t h _ _ => ?_
  rw [Sight.hiddenMember?_beside h f anchor hc]
  cases (sightFrom f s).hiddenMember? ident.name c with
  | none => exact stopChain hc _
  | some x =>
    refine (stopChain (hc.track x) _).conseq fun d d' h => ⟨h.similar, h.behind, ?_⟩
    obtain ⟨p, hp, hp'⟩ := h.path
    obtain ⟨q, hq, hq'⟩ := hc.track_path x
    exact ⟨q ++ p, by rw [hp, hq, List.append_assoc], by rw [hp', hq', List.append_assoc]⟩

section
variable {ident : Identifier}
  (hdims : InStep anchor (fun _ _ => True) (lowerDims part ident.dims) (lowerDims part ident.dims))
include hdims

theorem lowerSymbol (r : SymbolRef) :
    InStep anchor (Cursor.Apace c c') (lowerSymbol part ident c r) (lowerSymbol part ident c' r) := by
  refine bind (getSymbol r) fun x _ heq => ?_
  subst heq
  rw [hc.anchor]
  cases (if x.isStatic then none else c.anchor) with
  | some cls =>
    refine withSight fun f s t h _ _ => ?_
    have hname : (sightFrom { f with anchor } t).className cls = (sightFrom f s).className cls := by
      have hclasses : (sightFrom { f with anchor } t).session.classes = (sightFrom f s).session.classes :=
        h.classes
      unfold Sight.className
      rw [hclasses]
    rw [hname]
    exact bind (report _ _ _) fun _ _ _ => stopChain hc _
  | none =>
    refine bind hdims fun _ _ _ => withFrame fun f => ?_
    refine bind (silent (.recordSplitDims _ _) (.recordSplitDims _ _)) fun _ _ _ => ?_
    refine iteLeft (bindLeft (.emitPush _ _ _) fun _ => ?_) (iteLeft (bindLeft (.emitPushDims _) fun _ =>
      bindLeft (.emitPushm _ _ _) fun _ => ?_) (bindLeft (.emitPushm _ _ _) fun _ => ?_))
    all_goals
      refine iteRight (bindRight (.emitPush _ _ _) fun _ => ?_) (iteRight (bindRight (.emitPushDims _) fun _ =>
        bindRight (.emitPushm _ _ _) fun _ => ?_) (bindRight (.emitPushm _ _ _) fun _ => ?_))
      all_goals
        have htracked := hc.track { Segment.ofName ident.name (some r) x.classScope with
          dims := literalDims f.dialect ident.dims }
        exact pure ⟨⟨rfl, rfl, by simp, htracked.isLate, htracked.lateEntry, htracked.isStopped⟩, by simp,
          hc.track_path _⟩

theorem lowerLate : InStep anchor (Cursor.Apace c c') (lowerLate part ident c) (lowerLate part ident c') := by
  unfold Lowering.lowerLate
  rw [hc.receiver?]
  have hrest : InStep anchor (Cursor.Apace c c')
      (finishLate part ident c)
      (finishLate part ident c') := by
    refine bind (registerLateVariable ident.name hc.lateEntry) fun p q hpq => ?_
    obtain ⟨i, e, rfl, rfl⟩ := hpq
    refine bind hdims fun _ _ _ => ?_
    have hend : InStep anchor (Cursor.Apace c c')
        (do
          let _ ← emitPushm (.dynamic i) (← Lowering.classScope) ident.span
          return { c with lateEntry := e, type := .var, depth := c.depth + 1, isLate := true, anchor := none }
            : Lower Cursor)
        (do
          let _ ← emitPushm (.dynamic i) (← Lowering.classScope) ident.span
          return { c' with
            lateEntry := e, type := .var, depth := c'.depth + 1, isLate := true, anchor := none }) := by
      refine bind classScope fun _ _ _ => bind (silent (.emitPushm _ _ _) (.emitPushm _ _ _)) fun _ _ _ => pure ?_
      exact ⟨⟨rfl, rfl, by simp, rfl, rfl, hc.isStopped⟩, by simp, [], by simp⟩
    exact ite (bind (silent (.emitPushDims _) (.emitPushDims _)) fun _ _ _ => hend) hend
  exact ite (bind (warnUnbound _ _) fun _ _ _ => hrest) hrest

theorem lowerIdentifier (hname : c.depth = 0 → IsPlainName ident.name) :
    InStep anchor (Cursor.Apace c c') (lowerIdentifier part ident c) (lowerIdentifier part ident c') := by
  unfold Lowering.lowerIdentifier
  have hroot : (c'.depth == 0) = (c.depth == 0) := Bool.eq_iff_iff.mpr (by simp [hc.depth])
  rw [hroot]
  refine ite (lowerThis hc ident) (withSight fun f s t h hnone hanchor => ?_)
  rw [Sight.segmentTarget_beside h f anchor hnone hanchor hc hname]
  cases (sightFrom f s).segmentTarget ident.name c with
  | symbol r => exact lowerSymbol hc hdims r
  | cls id => exact lowerClassName hc ident id
  | inaccessible => exact lowerInaccessible hc ident
  | arrayReceiver => exact stopChain hc _
  | unbound =>
    simp only [← hc.depth]
    exact ite (bind (warnUnbound _ _) fun _ _ _ => stopChain hc _) (lowerLate hc hdims)

end

/-! ### Calls -/

omit hc in
theorem lowerKnownCall (call : Call) (r : ProcRef) :
    InStep anchor Eq (lowerKnownCall call c r) (lowerKnownCall call c' r) := by
  refine bind (emits (Mild.emits_emitStepping _ _ []) (Mild.emits_emitStepping _ _ []) rfl) fun _ _ _ => ?_
  refine withSession fun s t hst => ?_
  rw [hst.beside.procedure?]
  cases s.procedure? r with
  | none => exact defect _
  | some p => exact ite (bind (setCallee (some r)) fun _ _ _ => pure rfl) (pure rfl)

omit hc in
theorem emitLateCall (i depth depth' : Nat) (span : Span) :
    InStep anchor (fun _ _ => True) (emitLateCall i depth span) (emitLateCall i depth' span) := by
  refine bind classOperand fun cls _ heq => ?_
  subst heq
  exact emits (Mild.emits_emitStepping _ _ []) (Mild.emits_emitStepping _ _ []) rfl

theorem lowerLateCall (call : Call) :
    InStep anchor Eq (lowerLateCall call c) (lowerLateCall call c') := by
  have hrest : InStep anchor Eq
      (do
        let i ← Lowering.registerLateFunction call.name call.args.length
        let _ ← Lowering.emitLateCall i c.depth call.span
        return (.var, .ofMethod call.name) : Lower (Ty × Segment))
      (do
        let i ← Lowering.registerLateFunction call.name call.args.length
        let _ ← Lowering.emitLateCall i c'.depth call.span
        return (.var, .ofMethod call.name)) := by
    refine bind (registerLateFunction _ _) fun i _ heq => ?_
    subst heq
    exact bind (emitLateCall i _ _ _) fun _ _ _ => pure rfl
  unfold Lowering.lowerLateCall
  rw [hc.receiver?]
  have hdepth : (c'.depth = 0) = (c.depth = 0) := propext hc.depth.symm
  simp only [hdepth]
  exact ite (bind (warnFunctionNotFound _ _ _) fun _ _ _ => hrest) hrest

section
variable {call : Call}
  (hargs : InStep anchor (fun _ _ => True) (call.args.forM fun a => do let _ ← part a)
    (call.args.forM fun a => do let _ ← part a))
  (hdims : InStep anchor (fun _ _ => True) (lowerDims part call.dims) (lowerDims part call.dims))
include hargs hdims

theorem lowerInvocation (target : Option ProcRef) :
    InStep anchor (Cursor.Apace c c') (lowerInvocation part call c target)
      (lowerInvocation part call c' target) := by
  refine bind hargs fun _ _ _ => ?_
  have hrest (type : Ty) (segment : Segment) : InStep anchor (Cursor.Apace c c')
      (finishInvocation part call c target (type, segment))
      (finishInvocation part call c' target (type, segment)) := by
    refine bind hdims fun _ _ _ => ?_
    refine ite (bind (silent (.emitPushIndex _) (.emitPushIndex _)) fun _ _ _ => withFrame fun f => ?_)
      (withFrame fun f => ?_)
    all_goals
      have htracked := hc.track { segment with dims := literalDims f.dialect call.dims }
      exact pure ⟨⟨rfl, rfl, by simp, htracked.isLate, rfl, htracked.isStopped⟩, by simp, hc.track_path _⟩
  cases target with
  | some r =>
    refine bind (lowerKnownCall call r) fun p _ heq => ?_
    subst heq
    exact hrest p.1 p.2
  | none =>
    refine bind (lowerLateCall hc call) fun p _ heq => ?_
    subst heq
    exact hrest p.1 p.2

theorem lowerResolvedCall :
    InStep anchor (Cursor.Apace c c') (lowerResolvedCall part call c) (lowerResolvedCall part call c') := by
  refine withSight fun f s t h _ _ => ?_
  rw [Sight.callTarget_beside h f anchor hc]
  cases (sightFrom f s).callTarget call.name call.args.length c with
  | procedure r => exact lowerInvocation hc hargs hdims (some r)
  | unresolved => exact lowerInvocation hc hargs hdims none
  | nonStatic =>
    have hmessage : nonStaticMessage (sightFrom { f with anchor } t) call.name c'.anchor =
        nonStaticMessage (sightFrom f s) call.name c.anchor := by
      have hclasses : (sightFrom { f with anchor } t).session.classes = (sightFrom f s).session.classes :=
        h.classes
      unfold nonStaticMessage Sight.className
      rw [hclasses, hc.anchor]
    dsimp only
    rw [hmessage]
    exact bind (report _ _ _) fun _ _ _ => stopChain hc _
  | inaccessible => exact bind (report _ _ _) fun _ _ _ => stopChain hc _
  | arrayReceiver => exact stopChain hc _

theorem lowerCall : InStep anchor (Cursor.Apace c c') (lowerCall part call c) (lowerCall part call c') := by
  refine withSession fun s t hst => ?_
  have hguides : t.options.replicationGuides = s.options.replicationGuides := by rw [← hst.options]
  rw [hguides]
  refine withReader (fun _ => rfl) (fun _ => rfl) (fun _ => rfl) (withSight fun f s t h hnone hanchor => ?_)
  rw [Sight.accessedProperty?_beside h f anchor hnone hanchor hc]
  cases haccessed : accessedProperty? (sightFrom f s) call c with
  | none => exact lowerResolvedCall hc hargs hdims
  | some property =>
    refine lowerIdentifier hc hdims fun hdepth => ?_
    -- A call of an accessor stands behind another segment.
    unfold accessedProperty? at haccessed
    split at haccessed
    · cases haccessed
    · simp [hdepth] at haccessed

end

end InStep

end Diglot.Lowering
