import Diglot.Proofs.Chains.Walk
import Diglot.Proofs.Split.Sound
import Mathlib.Data.List.Flatten

/-! # Parentheses around the segments of a chain

A segment is a name or a call, in any number of parentheses. Subscripts and guides may be written behind the
name or call itself and behind each pair of parentheses: these are its layers.

`Node.unwrap` keeps what is written on the outermost layer that has anything, and drops the rest
(`Node.unwrap_eq`). Lowering a chain evaluates what its unwrapped segments carry, each part once and in order
(`Hands.lowerSegments`), so what is dropped there is not evaluated at all (`group_drops_subscript`).
-/

set_option autoImplicit false

namespace Diglot

/-! ## Layers -/

/-- What is written behind a name, a call or a pair of parentheses. -/
structure Layer where
  dims : List Node
  guides : List Guide

namespace Layer

def isBare (l : Layer) : Bool := l.dims.isEmpty && l.guides.isEmpty

theorem isBare_iff {l : Layer} : l.isBare = true ↔ l = ⟨[], []⟩ := by
  obtain ⟨dims, guides⟩ := l
  simp [isBare]

/-- The layers on which something is written. -/
def marked (layers : List Layer) : List Layer := layers.filter fun l => !l.isBare

/-- The last layer on which something is written. -/
def outermost (layers : List Layer) : Layer := (marked layers).getLast?.getD ⟨[], []⟩

/-- All that is written, in the order in which it applies. -/
def gathered (layers : List Layer) : Layer := ⟨layers.flatMap dims, layers.flatMap guides⟩

/-- The layers on which something is written, but for the outermost of them. -/
def covered (layers : List Layer) : List Layer := (marked layers).dropLast

variable {l : Layer} {layers : List Layer}

theorem not_bare_of_mem_marked (h : l ∈ marked layers) : l.isBare = false := by
  have hmarked := (List.mem_filter.mp h).2
  simpa using hmarked

theorem gathered_append (layers more : List Layer) :
    gathered (layers ++ more) =
      ⟨(gathered layers).dims ++ (gathered more).dims, (gathered layers).guides ++ (gathered more).guides⟩ := by
  simp [gathered]

/-- Layers on which nothing is written add nothing. -/
theorem gathered_marked (layers : List Layer) : gathered (marked layers) = gathered layers := by
  induction layers with
  | nil => rfl
  | cons l rest ih =>
    have hsplit : gathered (l :: rest) =
        ⟨l.dims ++ (gathered rest).dims, l.guides ++ (gathered rest).guides⟩ := rfl
    cases hl : l.isBare with
    | true =>
      obtain rfl := isBare_iff.mp hl
      rw [hsplit, ← ih]
      rfl
    | false =>
      have hmarked : marked (l :: rest) = l :: marked rest := List.filter_cons_of_pos (by simp [hl])
      rw [hmarked, hsplit, ← ih]
      rfl

theorem outermost_concat (layers : List Layer) (l : Layer) :
    outermost (layers ++ [l]) = if l.isBare then outermost layers else l := by
  unfold outermost marked
  rw [List.filter_append]
  cases hl : l.isBare with
  | true => simp [hl]
  | false => simp [hl]

theorem outermost_single (l : Layer) : outermost [l] = l := by
  refine (outermost_concat [] l).trans ?_
  split
  · next h => exact (isBare_iff.mp h).symm
  · rfl

/-- What is written is on the covered layers and on the outermost one. -/
theorem gathered_eq (layers : List Layer) :
    gathered layers =
      ⟨(gathered (covered layers)).dims ++ (outermost layers).dims,
        (gathered (covered layers)).guides ++ (outermost layers).guides⟩ := by
  rw [← gathered_marked layers]
  unfold covered outermost
  cases hlast : (marked layers).getLast? with
  | none =>
    rw [List.getLast?_eq_none_iff.mp hlast]
    rfl
  | some l =>
    obtain ⟨front, hfront⟩ := List.getLast?_eq_some_iff.mp hlast
    rw [hfront, List.dropLast_concat, gathered_append]
    simp [gathered]

/-- The outermost layer has all subscripts if and only if no covered layer has any. -/
theorem outermost_dims_iff :
    (outermost layers).dims = layers.flatMap dims ↔ ∀ l ∈ covered layers, l.dims = [] := by
  have hdims : layers.flatMap dims = (gathered (covered layers)).dims ++ (outermost layers).dims :=
    congrArg Layer.dims (gathered_eq layers)
  rw [hdims, List.self_eq_append_left]
  exact List.flatMap_eq_nil_iff

/-- The outermost layer has all that is written if and only if there is no covered layer. -/
theorem outermost_eq_gathered_iff : outermost layers = gathered layers ↔ (marked layers).length ≤ 1 := by
  have hcovered : (marked layers).length ≤ 1 ↔ covered layers = [] := by
    rw [covered, ← List.length_eq_zero_iff, List.length_dropLast]
    omega
  rw [hcovered]
  refine ⟨fun h => ?_, fun h => ?_⟩
  · rw [gathered_eq] at h
    have hdims : (gathered (covered layers)).dims = [] :=
      List.self_eq_append_left.mp (congrArg Layer.dims h)
    have hguides : (gathered (covered layers)).guides = [] :=
      List.self_eq_append_left.mp (congrArg Layer.guides h)
    refine List.eq_nil_iff_forall_not_mem.mpr fun l hl => ?_
    have hbare : l = ⟨[], []⟩ := by
      have hd : l.dims = [] := List.flatMap_eq_nil_iff.mp hdims l hl
      have hg : l.guides = [] := List.flatMap_eq_nil_iff.mp hguides l hl
      rw [← hd, ← hg]
    have hmarked := not_bare_of_mem_marked (List.dropLast_subset _ hl)
    rw [hbare] at hmarked
    cases hmarked
  · rw [gathered_eq, h]
    rfl

end Layer

namespace Node

/-- What stands inside of all parentheses. -/
def core : Node → Node
  | group inner _ _ _ => inner.core
  | n => n

/-- The layers of a segment, innermost first. -/
def layers : Node → List Layer
  | group inner dims guides _ => inner.layers ++ [⟨dims, guides⟩]
  | n => [⟨n.dims, n.guides⟩]

/-- A name or a call, in any number of parentheses. -/
def IsEnclosed (n : Node) : Prop := n.core.isSegment = true

/-- The name or call with the subscripts and guides of the layer. -/
def carrying (n : Node) (l : Layer) : Node := (n.setSubscripts? l.dims l.guides).getD n

/-- The arguments of a call. -/
def callArgs : Node → List Node
  | call c => c.args
  | _ => []

/-- The arguments and subscripts of a name or call. -/
def carried (n : Node) : List Node := n.callArgs ++ n.dims

/-- The arguments and all subscripts that are written in a segment, in the order in which they apply. -/
def written (n : Node) : List Node := n.core.callArgs ++ n.layers.flatMap Layer.dims

variable {n : Node} {l : Layer}

theorem exists_of_isSegment (h : n.isSegment = true) : (∃ i, n = .identifier i) ∨ ∃ c, n = .call c := by
  cases n with
  | identifier i => exact .inl ⟨i, rfl⟩
  | call c => exact .inr ⟨c, rfl⟩
  | _ => cases h

theorem isSegment_carrying (h : n.isSegment = true) (l : Layer) : (n.carrying l).isSegment = true := by
  obtain ⟨_, rfl⟩ | ⟨_, rfl⟩ := exists_of_isSegment h
  · rfl
  · rfl

theorem dims_carrying (h : n.isSegment = true) (l : Layer) : (n.carrying l).dims = l.dims := by
  obtain ⟨_, rfl⟩ | ⟨_, rfl⟩ := exists_of_isSegment h
  · rfl
  · rfl

theorem callArgs_carrying (h : n.isSegment = true) (l : Layer) : (n.carrying l).callArgs = n.callArgs := by
  obtain ⟨_, rfl⟩ | ⟨_, rfl⟩ := exists_of_isSegment h
  · rfl
  · rfl

theorem carrying_injective (h : n.isSegment = true) {l l' : Layer} :
    n.carrying l = n.carrying l' ↔ l = l' := by
  refine ⟨fun heq => ?_, fun heq => heq ▸ rfl⟩
  obtain ⟨_, _⟩ := l
  obtain ⟨_, _⟩ := l'
  obtain ⟨_, rfl⟩ | ⟨_, rfl⟩ := exists_of_isSegment h
  · simpa [carrying, setSubscripts?] using heq
  · simpa [carrying, setSubscripts?] using heq

/-- Moving a layer inwards replaces what the inside carries, unless nothing is written on the layer. -/
theorem ungroup_carrying (h : n.isSegment = true) (l : Layer) (dims : List Node) (guides : List Guide) :
    (n.carrying l).ungroup dims guides =
      n.carrying (if (⟨dims, guides⟩ : Layer).isBare then l else ⟨dims, guides⟩) := by
  unfold ungroup
  change (if (⟨dims, guides⟩ : Layer).isBare = true then _ else _) = _
  split
  · rfl
  · obtain ⟨_, rfl⟩ | ⟨_, rfl⟩ := exists_of_isSegment h
    · rfl
    · rfl

theorem carrying_own (h : n.isSegment = true) : n.carrying ⟨n.dims, n.guides⟩ = n := by
  obtain ⟨⟨_, _, _, _⟩, rfl⟩ | ⟨⟨_, _, _, _, _⟩, rfl⟩ := exists_of_isSegment h
  · rfl
  · rfl

theorem isWrappable_of_isEnclosed (h : n.IsEnclosed) : n.isWrappable = true := by
  cases n with
  | identifier => rfl
  | call => rfl
  | group => rfl
  | _ => cases h

/-- The name or call inside carries what is written on the outermost layer that has anything. -/
theorem unwrap_eq (n : Node) (h : n.IsEnclosed) : n.unwrap = n.core.carrying (Layer.outermost n.layers) := by
  match n with
  | .group inner dims guides span =>
    have hinner : inner.IsEnclosed := h
    unfold unwrap layers core
    rw [if_pos (isWrappable_of_isEnclosed hinner), unwrap_eq inner hinner, ungroup_carrying hinner,
      Layer.outermost_concat]
  | .identifier i => exact (carrying_own h).symm.trans (congrArg _ (Layer.outermost_single _).symm)
  | .call c => exact (carrying_own h).symm.trans (congrArg _ (Layer.outermost_single _).symm)

theorem isSegment_unwrap (h : n.IsEnclosed) : n.unwrap.isSegment = true := by
  rw [unwrap_eq n h]
  exact isSegment_carrying h _

theorem dims_unwrap (h : n.IsEnclosed) : n.unwrap.dims = (Layer.outermost n.layers).dims := by
  rw [unwrap_eq n h, dims_carrying h]

theorem callArgs_unwrap (h : n.IsEnclosed) : n.unwrap.callArgs = n.core.callArgs := by
  rw [unwrap_eq n h, callArgs_carrying h]

end Node

namespace Lowering

/-- The subscripts behind the root of a chain are passed over: it is the current object or the name of a class. -/
def Sight.isUnsubscripted (v : Sight) (root : Identifier) : Bool :=
  root.isThis ||
    match v.rootTarget root.name with
    | .cls _ => true
    | _ => false

theorem Sight.isUnsubscripted_iff {v : Sight} {root : Identifier} :
    v.isUnsubscripted root = true ↔ root.isThis = true ∨ ∃ cls, v.rootTarget root.name = .cls cls := by
  unfold isUnsubscripted
  cases v.rootTarget root.name <;> simp

/-- What the root of a chain, a name or a call, hands on. -/
def Sight.ofRoot (v : Sight) : Node → List Node
  | .identifier ident => if v.isUnsubscripted ident then [] else ident.dims
  | n => n.carried

theorem Sight.ofRoot_congr {s t : Session} (h : s.SameNames t) {f : Frame} (n : Node) :
    (sightFrom f t).ofRoot n = (sightFrom f s).ofRoot n := by
  cases n with
  | identifier ident =>
    have hroot : (sightFrom f t).rootTarget ident.name = (sightFrom f s).rootTarget ident.name := by
      have hsight : sightFrom f t = ⟨t, { (sightFrom f s).frame with isGuided := f.isGuided },
          (sightFrom f s).blocks⟩ := by
        unfold sightFrom
        rw [h.enclosing?_eq]
      rw [hsight]
      exact rootTarget_congr h f.isGuided ident.name
    have hpassed : (sightFrom f t).isUnsubscripted ident = (sightFrom f s).isUnsubscripted ident := by
      unfold isUnsubscripted
      rw [hroot]
    dsimp only [ofRoot]
    rw [hpassed]
  | _ => rfl

/-- A call that reads a member stands behind another segment and has no arguments. -/
theorem accessedProperty?_behind {v : Sight} {call : Call} {c : Cursor} {property : String}
    (h : accessedProperty? v call c = some property) : call.args = [] ∧ c.depth ≠ 0 := by
  unfold accessedProperty? at h
  split at h
  · cases h
  · split at h
    · next hcall =>
      rw [Bool.and_eq_true, decide_eq_true_iff, List.isEmpty_iff] at hcall
      exact ⟨hcall.1, Nat.ne_of_gt hcall.2⟩
    · cases h

/-! ## What is handed on -/

/-- Hands a part on, and remembers it. -/
def noting (part : LowerPart) (node : Node) : Lower Ty := do
  pushPointers [node]
  part node

/-- The parts that a step hands on to the lowering of expressions, in order. -/
def handed {α : Type} (m : LowerPart → Lower α) (f : Frame) (s : State) : List Node :=
  (ending (m (noting expression) f { s with pointers := [] })).pointers

variable {α β : Type} {f : Frame} {s t : State} {c d : Cursor} {part : LowerPart}

/-- If the chain goes on behind the cursor, the given nodes were handed on. -/
def Cursor.Evaluates (nodes : List Node) (d : Cursor) (parts : List Node) : Prop :=
  d.isStopped = false → parts = nodes ∧ d.depth ≠ 0

/-- A run of the step that finishes remembers some parts, as `Q` says. -/
def Hands (f : Frame) (m : Lower α) (Q : α → List Node → Prop) : Prop :=
  ∀ s a t, m f s = .ok a t → ∃ parts, t.pointers = s.pointers ++ parts ∧ Q a parts

namespace Hands

variable {Q : α → List Node → Prop} {R : β → List Node → Prop}

theorem pure {a : α} (h : Q a []) : Hands f (Pure.pure a : Lower α) Q := by
  intro s b t hrun
  cases hrun
  exact ⟨[], (List.append_nil _).symm, h⟩

theorem bind {m : Lower α} {k : α → Lower β} (hm : Hands f m Q)
    (hk : ∀ a parts, Q a parts → Hands f (k a) fun b more => R b (parts ++ more)) : Hands f (m >>= k) R := by
  intro s b u hrun
  obtain ⟨a, t, hfirst, hrest⟩ := bind_eq_ok.mp hrun
  obtain ⟨parts, hparts, hQ⟩ := hm s a t hfirst
  obtain ⟨more, hmore, hR⟩ := hk a parts hQ t b u hrest
  exact ⟨parts ++ more, by rw [hmore, hparts, List.append_assoc], hR⟩

/-- A step that no part is handed to. -/
theorem quiet {m : Lower α} (h : Tame false false m) : Hands f m fun _ parts => parts = [] := by
  intro s a t hrun
  exact ⟨[], by rw [(h.keeps_ok hrun).pointers, List.append_nil], rfl⟩

theorem after {m : Lower α} {k : α → Lower β} (h : Tame false false m) (hk : ∀ a, Hands f (k a) R) :
    Hands f (m >>= k) R :=
  bind (quiet h) fun a parts hparts => by
    subst hparts
    exact hk a

theorem ite {b : Prop} [Decidable b] {m n : Lower α} (hm : Hands f m Q) (hn : Hands f n Q) :
    Hands f (if b then m else n) Q := by
  split
  · exact hm
  · exact hn

theorem conseq {Q' : α → List Node → Prop} {m : Lower α} (h : Hands f m Q) (hQ : ∀ a parts, Q a parts → Q' a parts) :
    Hands f m Q' := fun s a t hrun =>
  let ⟨parts, hparts, hparts'⟩ := h s a t hrun
  ⟨parts, hparts, hQ a parts hparts'⟩

theorem withReader {g : Frame → Frame} {m : Lower α} (h : Hands (g f) m Q) :
    Hands f (MonadWithReader.withReader g m : Lower α) Q := h

theorem withSession {k : Session → Lower β} (h : ∀ s, Hands f (k s) R) : Hands f (getSession >>= k) R :=
  fun s => h s.session s

theorem withFrame {k : Frame → Lower β} (h : Hands f (k f) R) : Hands f (MonadReader.read >>= k) R := h

theorem withSight {k : Sight → Lower β} (h : ∀ v, Hands f (k v) R) : Hands f (sight >>= k) R := by
  intro s b u hrun
  obtain ⟨v, t, hsight, hrest⟩ := bind_eq_ok.mp hrun
  obtain ⟨rfl, -⟩ := sight_ok hsight
  exact h v t b u hrest

/-- A chain that is stopped promises nothing. -/
theorem stopChain (span : Span) (nodes : List Node) : Hands f (Lowering.stopChain c span) (Cursor.Evaluates nodes) :=
  after (.emitPush _ _ _) fun _ => pure nofun

theorem lowerInaccessible (ident : Identifier) {nodes : List Node} :
    Hands f (lowerInaccessible ident c) (Cursor.Evaluates nodes) :=
  after (.report _ _ _) fun _ => withSight fun v => by
    cases v.hiddenMember? ident.name c with
    | none => exact stopChain _ _
    | some x => exact stopChain _ _

/-- The segments behind one that may have stopped the chain. -/
theorem lowerRest {isRoot : Bool} {rest nodes more parts : List Node} (hfirst : d.Evaluates nodes parts)
    (hrest : d.depth ≠ 0 → Hands f (Lowering.lowerSegments part isRoot rest d) (Cursor.Evaluates more)) :
    Hands f (Lowering.lowerSegments part isRoot rest d) fun e more' =>
      e.Evaluates (nodes ++ more) (parts ++ more') := by
  cases hstopped : d.isStopped with
  | true =>
    have hend : Lowering.lowerSegments part isRoot rest d = Pure.pure d := by
      cases rest with
      | nil => rfl
      | cons n rest =>
        unfold Lowering.lowerSegments
        rw [hstopped, if_pos rfl]
    rw [hend]
    exact pure fun hgoes => absurd hgoes (by simp [hstopped])
  | false =>
    obtain ⟨rfl, hdepth⟩ := hfirst hstopped
    refine (hrest hdepth).conseq fun e more' he hgoes => ?_
    obtain ⟨rfl, hdepth'⟩ := he hgoes
    exact ⟨rfl, hdepth'⟩

section
variable (hpart : ∀ n, Tame false true (part n))
include hpart

theorem noting (n : Node) : Hands f (noting part n) fun _ parts => parts = [n] := by
  intro s a t hrun
  have hkept := (hpart n).keeps_ok (s := { s with pointers := s.pointers ++ [n] }) hrun
  exact ⟨[n], hkept.pointers, rfl⟩

theorem parts (nodes : List Node) :
    Hands f (nodes.forM fun n => do
      let _ ← Lowering.noting part n) fun _ parts => parts = nodes := by
  induction nodes with
  | nil => exact pure rfl
  | cons n rest ih =>
    have hfirst : Hands f (do
        let _ ← Lowering.noting part n) fun _ parts => parts = [n] :=
      bind (noting hpart n) fun _ parts hparts => pure (by rw [hparts]; rfl)
    refine bind hfirst fun _ parts hparts => ih.conseq fun _ more hmore => ?_
    rw [hparts, hmore]
    rfl

theorem lowerDims (dims : List Node) :
    Hands f (lowerDims (Lowering.noting part) dims) fun _ parts => parts = dims :=
  withReader (parts hpart dims)

/-- The subscripts are handed on first. -/
theorem afterDims {dims : List Node} {k : Unit → Lower β} {Q : β → List Node → Prop}
    (hk : Hands f (k ()) fun b more => Q b (dims ++ more)) :
    Hands f (Lowering.lowerDims (Lowering.noting part) dims >>= k) Q :=
  bind (lowerDims hpart dims) fun _ parts hparts => by
    subst hparts
    exact hk

theorem lowerSymbol (ident : Identifier) (r : SymbolRef) :
    Hands f (lowerSymbol (Lowering.noting part) ident c r) (Cursor.Evaluates ident.dims) := by
  refine after (.getSymbol r) fun symbol => ?_
  split
  · exact withSight fun _ => after (.report _ _ _) fun _ => stopChain _ _
  · refine afterDims hpart (withFrame (after (.recordSplitDims _ _) fun _ => ?_))
    have hend {d : Cursor} (h : d.depth ≠ 0) : Hands f (Pure.pure d : Lower Cursor) fun d more =>
        d.Evaluates ident.dims (ident.dims ++ more) := pure fun _ => ⟨List.append_nil _, h⟩
    refine ite (after (.emitPush _ _ _) fun _ => hend (Nat.succ_ne_zero _)) (ite ?_ ?_)
    · refine after (.emitPushDims _) fun _ => ?_
      exact after (.emitPushm _ _ _) fun _ => hend (Nat.succ_ne_zero _)
    · exact after (.emitPushm _ _ _) fun _ => hend (Nat.succ_ne_zero _)

theorem lowerLate (ident : Identifier) :
    Hands f (lowerLate (Lowering.noting part) ident c) (Cursor.Evaluates ident.dims) := by
  have hrest : Hands f (finishLate (Lowering.noting part) ident c)
      (Cursor.Evaluates ident.dims) := by
    refine after (.registerLateVariable _ _) fun p => afterDims hpart ?_
    have hend {d : Cursor} (h : d.depth ≠ 0) : Hands f (Pure.pure d : Lower Cursor) fun d more =>
        d.Evaluates ident.dims (ident.dims ++ more) := pure fun _ => ⟨List.append_nil _, h⟩
    refine ite (after (.emitPushDims _) fun _ => ?_) ?_
    · refine after .classScope fun cls => ?_
      exact after (.emitPushm _ _ _) fun _ => hend (Nat.succ_ne_zero _)
    · refine after .classScope fun cls => ?_
      exact after (.emitPushm _ _ _) fun _ => hend (Nat.succ_ne_zero _)
  exact ite (after (.warnUnbound _ _) fun _ => hrest) hrest

theorem lowerInvocation (call : Call) (target : Option ProcRef) :
    Hands f (lowerInvocation (Lowering.noting part) call c target)
      (Cursor.Evaluates (call.args ++ call.dims)) := by
  have hbehind (p : Ty × Segment) : Hands f (finishInvocation (Lowering.noting part) call c target p)
      fun d more => d.Evaluates (call.args ++ call.dims) (call.args ++ more) := by
    refine afterDims hpart ?_
    have hend {d : Cursor} (h : d.depth ≠ 0) : Hands f (Pure.pure d : Lower Cursor) fun d more =>
        d.Evaluates (call.args ++ call.dims) (call.args ++ (call.dims ++ more)) :=
      pure fun _ => ⟨by rw [List.append_nil], h⟩
    refine ite (after (.emitPushIndex _) fun _ => withFrame (hend Nat.one_ne_zero)) ?_
    exact withFrame (hend Nat.one_ne_zero)
  refine bind (parts hpart call.args) fun _ parts hparts => ?_
  subst hparts
  cases target with
  | some r => exact after (.lowerKnownCall _ _ _) fun p => hbehind p
  | none => exact after (.lowerLateCall _ _) fun p => hbehind p

theorem lowerResolvedCall (call : Call) :
    Hands f (lowerResolvedCall (Lowering.noting part) call c) (Cursor.Evaluates (call.args ++ call.dims)) := by
  refine withSight fun v => ?_
  cases v.callTarget call.name call.args.length c with
  | procedure r => exact lowerInvocation hpart call (some r)
  | unresolved => exact lowerInvocation hpart call none
  | nonStatic => exact after (.report _ _ _) fun _ => stopChain _ _
  | inaccessible => exact after (.report _ _ _) fun _ => stopChain _ _
  | arrayReceiver => exact stopChain _ _

/-! ## Segments -/

/-- Nothing is handed on for the subscripts of the current object and of the name of a class. -/
theorem lowerIdentifier {ident : Identifier} (hrun : lowerIdentifier (Lowering.noting part) ident c f s = .ok d t) :
    ∃ parts, t.pointers = s.pointers ++ parts ∧
      d.Evaluates (if c.depth = 0 ∧ (sightFrom f s.session).isUnsubscripted ident then [] else ident.dims)
        parts := by
  unfold Lowering.lowerIdentifier at hrun
  rw [run_ite] at hrun
  split at hrun
  · next hthis =>
    rw [Bool.and_eq_true, beq_iff_eq] at hthis
    obtain ⟨parts, hparts, rfl⟩ := quiet (f := f) (.lowerThis ident c) s d t hrun
    obtain rfl := lowerThis_ok hrun
    rw [if_pos ⟨hthis.2, Sight.isUnsubscripted_iff.mpr (.inl hthis.1)⟩]
    refine ⟨[], hparts, fun _ => ⟨rfl, ?_⟩⟩
    unfold Cursor.track
    split
    · exact Nat.succ_ne_zero _
    · exact Nat.succ_ne_zero _
  · next hthis =>
    obtain ⟨v, u, hsight, hrun⟩ := bind_eq_ok.mp hrun
    obtain ⟨hsame, hv⟩ := sight_ok hsight
    rw [hsame, hv] at hrun
    -- Only the name of a class has a run without its subscripts.
    have hother (hcls : ∀ cls, (sightFrom f s.session).segmentTarget ident.name c ≠ .cls cls) :
        (if c.depth = 0 ∧ (sightFrom f s.session).isUnsubscripted ident then [] else ident.dims) =
          ident.dims := by
      refine if_neg fun h => ?_
      obtain ⟨hdepth, h⟩ := h
      obtain hself | ⟨cls, hroot⟩ := Sight.isUnsubscripted_iff.mp h
      · exact hthis (by simp [hself, hdepth])
      · refine hcls cls ?_
        unfold Sight.segmentTarget
        rw [if_pos hdepth, hroot]
    cases htarget : (sightFrom f s.session).segmentTarget ident.name c with
    | cls cls =>
      rw [htarget] at hrun
      obtain ⟨parts, hparts, rfl⟩ := quiet (f := f) (.lowerClassName ident c cls) s d t hrun
      obtain rfl := lowerClassName_ok hrun
      have hdepth : c.depth = 0 := by
        by_contra hne
        exact Sight.segmentTarget_ne_cls hne htarget
      have hroot : (sightFrom f s.session).rootTarget ident.name = .cls cls := by
        unfold Sight.segmentTarget at htarget
        rwa [if_pos hdepth] at htarget
      rw [if_pos ⟨hdepth, Sight.isUnsubscripted_iff.mpr (.inr ⟨cls, hroot⟩)⟩]
      exact ⟨[], hparts, fun _ => ⟨rfl, Nat.succ_ne_zero _⟩⟩
    | symbol r =>
      rw [hother (by rw [htarget]; exact nofun)]
      rw [htarget] at hrun
      exact lowerSymbol hpart ident r s d t hrun
    | inaccessible =>
      rw [htarget] at hrun
      exact lowerInaccessible ident s d t hrun
    | arrayReceiver =>
      rw [htarget] at hrun
      exact stopChain _ _ s d t hrun
    | unbound =>
      rw [hother (by rw [htarget]; exact nofun)]
      rw [htarget] at hrun
      dsimp only at hrun
      rw [run_ite] at hrun
      split at hrun
      · exact after (.warnUnbound _ _) (fun _ => stopChain _ _) s d t hrun
      · exact lowerLate hpart ident s d t hrun

/-- Behind the root every name hands on its subscripts. -/
theorem lowerIdentifier_behind (ident : Identifier) (hdepth : c.depth ≠ 0) :
    Hands f (Lowering.lowerIdentifier (Lowering.noting part) ident c) (Cursor.Evaluates ident.dims) := by
  intro s d t hrun
  obtain ⟨parts, hparts, hevaluates⟩ := lowerIdentifier hpart hrun
  rw [if_neg fun h => hdepth h.1] at hevaluates
  exact ⟨parts, hparts, hevaluates⟩

/-- The call of an accessor has no arguments, and is lowered as the name of its member. -/
theorem lowerCall (call : Call) :
    Hands f (lowerCall (Lowering.noting part) call c) (Cursor.Evaluates (call.args ++ call.dims)) := by
  refine withSession fun s => withReader (withSight fun v => ?_)
  cases haccessed : accessedProperty? v call c with
  | none => exact lowerResolvedCall hpart call
  | some property =>
    obtain ⟨hargs, hdepth⟩ := accessedProperty?_behind haccessed
    rw [hargs]
    exact lowerIdentifier_behind hpart ⟨property, call.dims, [], call.span⟩ hdepth

/-- What is handed on for a segment that is no computed value. -/
theorem lowerSegment {n : Node} (hn : n.isSegment = true) {isRoot : Bool}
    (hrun : lowerSegment (Lowering.noting part) isRoot n c f s = .ok d t) :
    ∃ parts, t.pointers = s.pointers ++ parts ∧
      d.Evaluates (if c.depth = 0 then (sightFrom f s.session).ofRoot n else n.carried) parts := by
  obtain ⟨ident, rfl⟩ | ⟨call, rfl⟩ := Node.exists_of_isSegment hn
  · obtain ⟨parts, hparts, hevaluates⟩ := lowerIdentifier hpart hrun
    refine ⟨parts, hparts, ?_⟩
    by_cases hdepth : c.depth = 0
    · simpa only [hdepth, true_and, if_true, Sight.ofRoot] using hevaluates
    · rw [if_neg fun h => hdepth h.1] at hevaluates
      rw [if_neg hdepth]
      exact hevaluates
  · have hall : (if c.depth = 0 then (sightFrom f s.session).ofRoot (.call call) else (Node.call call).carried) =
        call.args ++ call.dims := ite_self _
    rw [hall]
    exact lowerCall hpart call s d t hrun

/-- Behind the root every segment hands on its arguments and subscripts. -/
theorem lowerSegments_behind {segments : List Node} (hsegments : ∀ n ∈ segments, n.isSegment = true)
    {isRoot : Bool} (hdepth : c.depth ≠ 0) :
    Hands f (lowerSegments (Lowering.noting part) isRoot segments c)
      (Cursor.Evaluates (segments.flatMap Node.carried)) := by
  induction segments generalizing c isRoot with
  | nil => exact pure fun _ => ⟨rfl, hdepth⟩
  | cons n rest ih =>
    have hfirst : Hands f (Lowering.lowerSegment (Lowering.noting part) isRoot n c) (Cursor.Evaluates n.carried) := by
      intro s d t hrun
      obtain ⟨parts, hparts, hevaluates⟩ := lowerSegment hpart (hsegments n (List.mem_cons_self ..)) hrun
      rw [if_neg hdepth] at hevaluates
      exact ⟨parts, hparts, hevaluates⟩
    unfold Lowering.lowerSegments
    split
    · next hstopped => exact pure fun hgoes => absurd hgoes (by simp [hstopped])
    · exact bind hfirst fun d parts hparts =>
        lowerRest hparts fun hd => ih (fun m hm => hsegments m (List.mem_cons_of_mem n hm)) hd

/-- What is handed on along a chain: the root may pass over its subscripts. -/
theorem lowerSegments {root : Node} {rest : List Node} (hroot : root.isSegment = true)
    (hrest : ∀ n ∈ rest, n.isSegment = true) {isRoot isSingle : Bool}
    (hrun : lowerSegments (Lowering.noting part) isRoot (root :: rest) (.start isSingle) f s = .ok d t) :
    ∃ parts, t.pointers = s.pointers ++ parts ∧
      d.Evaluates ((sightFrom f s.session).ofRoot root ++ rest.flatMap Node.carried) parts := by
  have hgoes : (Cursor.start isSingle).isStopped = false := rfl
  rw [Lowering.lowerSegments, hgoes, if_neg Bool.false_ne_true] at hrun
  obtain ⟨e, u, hfirst, hrun⟩ := bind_eq_ok.mp hrun
  obtain ⟨parts, hparts, hevaluates⟩ := lowerSegment hpart hroot hfirst
  obtain ⟨more, hmore, hall⟩ := lowerRest (f := f) hevaluates
    (fun hdepth => lowerSegments_behind hpart hrest hdepth) u d t hrun
  exact ⟨parts ++ more, by rw [hmore, hparts, List.append_assoc], hall⟩

/-- Guides in front of a chain and the instruction behind it hand on nothing. -/
theorem chainCursor {root : Node} {rest : List Node} {span : Span} (hroot : root.unwrap.isSegment = true)
    (hrest : ∀ n ∈ rest, n.unwrap.isSegment = true)
    (hrun : chainCursor (Lowering.noting part) (root :: rest) span f s = .ok d t) :
    ∃ parts, t.pointers = s.pointers ++ parts ∧
      d.Evaluates ((sightFrom f s.session).ofRoot root.unwrap ++ (rest.map Node.unwrap).flatMap Node.carried)
        parts := by
  have hsegments (u : State) (hnames : s.session.SameNames u.session) (hrun : (do
      let c ← Lowering.lowerSegments (Lowering.noting part) true ((root :: rest).map Node.unwrap)
        (.start (((root :: rest).map Node.unwrap).length == 1))
      if 1 < c.depth then
        let _ ← emitPushlist c.depth c.afterCall span
      return c : Lower Cursor) f u = .ok d t) :
      ∃ parts, t.pointers = u.pointers ++ parts ∧
        d.Evaluates ((sightFrom f s.session).ofRoot root.unwrap ++ (rest.map Node.unwrap).flatMap Node.carried)
          parts := by
    obtain ⟨e, w, hwalk, hrun⟩ := bind_eq_ok.mp hrun
    obtain ⟨parts, hparts, hevaluates⟩ := lowerSegments hpart hroot
      (fun n hn => by obtain ⟨m, hm, rfl⟩ := List.mem_map.mp hn; exact hrest m hm) hwalk
    rw [Sight.ofRoot_congr hnames] at hevaluates
    rw [run_ite] at hrun
    split at hrun
    · obtain ⟨_, x, hlist, hrun⟩ := bind_eq_ok.mp hrun
      cases hrun
      have hemits : Tame true true (emitPushlist d.depth d.afterCall span) := .emitPushlist _ _ _
      exact ⟨parts, by rw [← hparts]; exact (hemits.keeps_ok hlist).pointers, hevaluates⟩
    · cases hrun
      exact ⟨parts, hparts, hevaluates⟩
  obtain ⟨on, u, hwanted, hrun⟩ := bind_eq_ok.mp hrun
  have hguides : Tame true false guidesWanted := .guidesWanted
  have hu := hguides.keeps_ok hwanted
  rw [run_ite] at hrun
  split at hrun
  · obtain ⟨_, w, hemit, hrun⟩ := bind_eq_ok.mp hrun
    have hemits : Tame true false
        (emitGuides ((((root :: rest).map Node.unwrap).getLast?.map Node.guides).getD [])) := .emitGuides _
    have hw := hu.trans (hemits.keeps_ok hemit)
    rw [← hw.pointers]
    exact hsegments w (hw.inert rfl).1 hrun
  · rw [← hu.pointers]
    exact hsegments u (hu.inert rfl).1 hrun

end

end Hands

/-! ## Remembering changes nothing else -/

theorem mild_noting (n : Node) : Mild false true (expression n) (noting expression n) := by
  have htame : Tame false true (expression n) := .expression n
  refine ⟨fun f s t hst => ?_, fun f s t hst => ?_, htame.keeps, htame.emits⟩
  · exact htame.alike f s { t with pointers := t.pointers ++ [n] } hst
  · exact htame.same f s { t with pointers := t.pointers ++ [n] } hst

namespace Mild

variable {part' : LowerPart} (hpart : ∀ n, Mild false true (part n) (part' n))
include hpart

theorem chainCursor (segments : List Node) (span : Span) :
    Mild false false (chainCursor part segments span) (chainCursor part' segments span) := by
  refine bind guidesWanted fun on => onlyIf (emitGuides _) ?_
  exact bind (lowerSegments hpart _ _ _) fun c => onlyIf (emitPushlist _ _ _) (pure _)

end Mild

/-- How the segments of a chain are lowered: where it is read, and where it is assigned, up to the last one. -/
inductive AlongSegments (segments : List Node) : (LowerPart → Lower Cursor) → Prop where
  | read (span : Span) : AlongSegments segments fun part => chainCursor part segments span
  | assigned : AlongSegments segments fun part => lowerSegments part false (segments.map Node.unwrap) (.start false)

theorem AlongSegments.mild {segments : List Node} {m : LowerPart → Lower Cursor} (h : AlongSegments segments m) :
    Mild false false (m expression) (m (noting expression)) := by
  cases h with
  | read span => exact .chainCursor mild_noting _ span
  | assigned => exact .lowerSegments mild_noting _ _ _

/-- What is handed on along a chain is what its unwrapped segments carry. -/
theorem AlongSegments.hands {root : Node} {rest : List Node} {m : LowerPart → Lower Cursor}
    (h : AlongSegments (root :: rest) m)
    (hsegments : ∀ n ∈ root :: rest, n.IsEnclosed) (hrun : m (noting expression) f s = .ok d t) :
    ∃ parts, t.pointers = s.pointers ++ parts ∧
      d.Evaluates ((sightFrom f s.session).ofRoot root.unwrap ++ (rest.map Node.unwrap).flatMap Node.carried)
        parts := by
  have hpart (n : Node) : Tame false true (expression n) := .expression n
  have hroot : root.unwrap.isSegment = true := Node.isSegment_unwrap (hsegments root (List.mem_cons_self ..))
  have hrest (n : Node) (hn : n ∈ rest) : n.unwrap.isSegment = true :=
    Node.isSegment_unwrap (hsegments n (List.mem_cons_of_mem root hn))
  cases h with
  | read span => exact Hands.chainCursor hpart hroot hrest hrun
  | assigned =>
    refine Hands.lowerSegments hpart hroot (fun n hn => ?_) hrun
    obtain ⟨m, hm, rfl⟩ := List.mem_map.mp hn
    exact hrest m hm

/-! ## What is written and what is evaluated -/

/-- Sublists put together make up the whole only if each of them does. -/
theorem append_eq_append_iff_of_sublist {γ : Type} {a b a' b' : List γ} (ha : a.Sublist a') (hb : b.Sublist b') :
    a ++ b = a' ++ b' ↔ a = a' ∧ b = b' := by
  refine ⟨fun h => ?_, fun h => by rw [h.1, h.2]⟩
  have hlength := congrArg List.length h
  rw [List.length_append, List.length_append] at hlength
  have hfirst := ha.length_le
  have hsecond := hb.length_le
  exact List.append_inj h (by omega)

theorem flatMap_eq_flatMap_iff {ι γ : Type} {g k : ι → List γ} {l : List ι}
    (hsub : ∀ i ∈ l, (g i).Sublist (k i)) : l.flatMap g = l.flatMap k ↔ ∀ i ∈ l, g i = k i := by
  induction l with
  | nil => simp
  | cons i rest ih =>
    have hrest (j : ι) (hj : j ∈ rest) := hsub j (List.mem_cons_of_mem i hj)
    rw [List.flatMap_cons, List.flatMap_cons, List.forall_mem_cons, ← ih hrest]
    exact append_eq_append_iff_of_sublist (hsub i (List.mem_cons_self ..)) (.flatMap_right rest hrest)

section
variable {n : Node} (hn : n.IsEnclosed)
include hn

theorem carried_sublist_written : n.unwrap.carried.Sublist n.written := by
  unfold Node.carried Node.written
  rw [Node.callArgs_unwrap hn, Node.dims_unwrap hn]
  refine (List.Sublist.refl _).append ?_
  rw [show n.layers.flatMap Layer.dims = _ from congrArg Layer.dims (Layer.gathered_eq n.layers)]
  exact List.sublist_append_right _ _

/-- A segment keeps all that is written in it if no covered layer has subscripts. -/
theorem carried_eq_written_iff : n.unwrap.carried = n.written ↔ ∀ l ∈ Layer.covered n.layers, l.dims = [] := by
  unfold Node.carried Node.written
  rw [Node.callArgs_unwrap hn, Node.dims_unwrap hn, List.append_right_inj]
  exact Layer.outermost_dims_iff

theorem ofRoot_sublist_carried (v : Sight) : (v.ofRoot n.unwrap).Sublist n.unwrap.carried := by
  obtain ⟨ident, hident⟩ | ⟨call, hcall⟩ := Node.exists_of_isSegment (Node.isSegment_unwrap hn)
  · rw [hident, Sight.ofRoot]
    split
    · exact List.nil_sublist _
    · exact .refl _
  · rw [hcall]
    exact .refl _

theorem ofRoot_eq_carried_iff (v : Sight) :
    v.ofRoot n.unwrap = n.unwrap.carried ↔
      ∀ ident, n.unwrap = .identifier ident → v.isUnsubscripted ident = true → ident.dims = [] := by
  obtain ⟨ident, hident⟩ | ⟨call, hcall⟩ := Node.exists_of_isSegment (Node.isSegment_unwrap hn)
  · rw [hident, Sight.ofRoot]
    change (if _ then [] else ident.dims) = ident.dims ↔ _
    simp only [Node.identifier.injEq, forall_eq']
    split
    · next hpassed => simp [hpassed, eq_comm]
    · next hpassed => simp [hpassed]
  · rw [hcall]
    exact ⟨fun _ => nofun, fun _ => rfl⟩

/-- The root hands on all that is written in it if no covered layer has subscripts, and its own ones are not
passed over. -/
theorem ofRoot_eq_written_iff (v : Sight) :
    v.ofRoot n.unwrap = n.written ↔
      (∀ l ∈ Layer.covered n.layers, l.dims = []) ∧
        ∀ ident, n.unwrap = .identifier ident → v.isUnsubscripted ident = true → ident.dims = [] := by
  have hroot := ofRoot_sublist_carried hn v
  have hall := carried_sublist_written hn
  rw [← carried_eq_written_iff hn, ← ofRoot_eq_carried_iff hn]
  refine ⟨fun h => ?_, fun h => h.2.trans h.1⟩
  have hcarried : n.unwrap.carried = n.written := hall.eq_of_length_le (h ▸ hroot.length_le)
  exact ⟨hcarried, h.trans hcarried.symm⟩

end

/-- Parentheses keep what is written on the outermost layer that has anything, so all of it if and only if that is
the only such layer. Along a chain that is not stopped each argument and subscript that the unwrapped segments
carry is evaluated once, in order; these are all that are written if and only if no covered layer has
subscripts, and the root is neither the current object nor the name of a class with subscripts behind it. -/
theorem written_subscripts_evaluated (root : Node) (rest : List Node) (hsegments : ∀ n ∈ root :: rest, n.IsEnclosed) :
    (∀ n ∈ root :: rest, n.unwrap = n.core.carrying (Layer.outermost n.layers) ∧
      (n.unwrap = n.core.carrying (Layer.gathered n.layers) ↔ (Layer.marked n.layers).length ≤ 1)) ∧
    ∀ (m : LowerPart → Lower Cursor) (f : Frame) (s t : State) (c : Cursor),
      AlongSegments (root :: rest) m → m expression f s = .ok c t → c.isStopped = false →
        seen State.bare (m (noting expression) f { s with pointers := [] }) = .ok c t.bare ∧
        handed m f s =
          (sightFrom f s.session).ofRoot root.unwrap ++ rest.flatMap (fun n => n.unwrap.carried) ∧
        (handed m f s = (root :: rest).flatMap Node.written ↔
          (∀ n ∈ root :: rest, ∀ l ∈ Layer.covered n.layers, l.dims = []) ∧
            ∀ ident, root.unwrap = .identifier ident →
              (sightFrom f s.session).isUnsubscripted ident = true → ident.dims = []) := by
  refine ⟨fun n hn => ⟨n.unwrap_eq (hsegments n hn), ?_⟩, fun m f s t c halong hrun hgoes => ?_⟩
  · rw [n.unwrap_eq (hsegments n hn), Node.carrying_injective (hsegments n hn)]
    exact Layer.outermost_eq_gathered_iff
  · have hsame := halong.mild.alike f s { s with pointers := [] } rfl
    rw [hrun] at hsame
    have hroot := hsegments root (List.mem_cons_self ..)
    have hrest (n : Node) (hn : n ∈ rest) := hsegments n (List.mem_cons_of_mem root hn)
    have hhanded : handed m f s =
        (sightFrom f s.session).ofRoot root.unwrap ++ rest.flatMap (fun n => n.unwrap.carried) := by
      unfold handed
      cases hnoting : m (noting expression) f { s with pointers := [] } with
      | error e u =>
        rw [hnoting] at hsame
        cases hsame
      | ok d u =>
        rw [hnoting] at hsame
        obtain rfl : c = d := (EStateM.Result.ok.inj hsame).1
        obtain ⟨parts, hparts, hevaluates⟩ := halong.hands hsegments hnoting
        obtain ⟨rfl, -⟩ := hevaluates hgoes
        rw [List.flatMap_map] at hparts
        exact hparts
    refine ⟨hsame.symm, hhanded, ?_⟩
    rw [hhanded, List.flatMap_cons, append_eq_append_iff_of_sublist
      ((ofRoot_sublist_carried hroot _).trans (carried_sublist_written hroot))
      (.flatMap_right rest fun n hn => carried_sublist_written (hrest n hn)),
      flatMap_eq_flatMap_iff fun n hn => carried_sublist_written (hrest n hn), ofRoot_eq_written_iff hroot,
      List.forall_mem_cons]
    have hbehind : (∀ n ∈ rest, n.unwrap.carried = n.written) ↔
        ∀ n ∈ rest, ∀ l ∈ Layer.covered n.layers, l.dims = [] :=
      forall₂_congr fun n hn => carried_eq_written_iff (hrest n hn)
    rw [hbehind, and_right_comm]

/-- The chain `((x))[y].(f(y))[y]`, whose segments have subscripts on one layer each. -/
def sampleGroups : List Node :=
  let x : Node := .identifier (.plain "x" .nil)
  let y : Node := .identifier (.plain "y" .nil)
  [.group (.group x [] [] .nil) [y] [] .nil, .group (.call ⟨"f", [y], [], [], .nil⟩) [y] [] .nil]

/-- All three occurrences of `y` are evaluated. -/
theorem sampleGroups_evaluated :
    ∃ c t, chainCursor expression sampleGroups .nil sampleFrame sampleState = .ok c t ∧ c.isStopped = false ∧
      handed (fun part => chainCursor part sampleGroups .nil) sampleFrame sampleState =
        sampleGroups.flatMap Node.written ∧ (sampleGroups.flatMap Node.written).length = 3 := by
  obtain ⟨c, t, hrun⟩ := ok_of_matches (m := chainCursor expression sampleGroups .nil) (f := sampleFrame)
    (s := sampleState) (by decide +kernel)
  have hgoes := of_decide_eq_true (of_ok (p := fun c _ => decide (c.isStopped = false)) (by decide +kernel) hrun)
  have hsegments : ∀ n ∈ sampleGroups, n.IsEnclosed := by
    simp [sampleGroups, Node.IsEnclosed, Node.core, Node.isSegment]
  obtain ⟨-, -, hall⟩ := (written_subscripts_evaluated _ _ hsegments).2 _ sampleFrame sampleState t c (.read .nil)
    hrun hgoes
  refine ⟨c, t, hrun, hgoes, hall.mpr ⟨?_, ?_⟩, rfl⟩
  · intro n hn l hl
    have hcovered : ∀ n ∈ sampleGroups, Layer.covered n.layers = [] := by
      simp [sampleGroups, Layer.covered, Layer.marked, Layer.isBare, Node.layers, Node.dims, Node.guides,
        Identifier.plain]
    rw [hcovered n hn] at hl
    cases hl
  · intro ident hident hpassed
    obtain rfl : (⟨"x", [.identifier (.plain "y" .nil)], [], .nil⟩ : Identifier) = ident :=
      Node.identifier.inj hident
    have hplace : (sightFrom sampleFrame sampleState.session).isUnsubscripted
        ⟨"x", [.identifier (.plain "y" .nil)], [], .nil⟩ = false := by decide +kernel
    rw [hplace] at hpassed
    cases hpassed

/-- In `(x[0])[1].m` the subscript inside of the parentheses is dropped and never evaluated. -/
theorem group_drops_subscript :
    let index (source : String) : Node := .literal .int source .nil
    let root : Node := .group (.identifier ⟨"x", [index "0"], [], .nil⟩) [index "1"] [] .nil
    let chain : List Node := [root, .identifier (.plain "m" .nil)]
    let sources (nodes : List Node) : List String := nodes.filterMap fun n =>
      match n with
      | .literal _ source _ => some source
      | _ => none
    root.IsEnclosed ∧ root.unwrap ≠ root.core.carrying (Layer.gathered root.layers) ∧
      (match chainCursor expression chain .nil sampleFrame sampleState with
        | .ok c _ => !c.isStopped
        | .error _ _ => false) = true ∧
      sources (chain.flatMap Node.written) = ["0", "1"] ∧
      sources (handed (fun part => chainCursor part chain .nil) sampleFrame sampleState) = ["1"] := by
  refine ⟨rfl, ?_, by decide +kernel, rfl, by decide +kernel⟩
  simp [Node.unwrap, Node.isWrappable, Node.ungroup, Node.setSubscripts?, Node.carrying, Node.core, Node.layers,
    Node.dims, Node.guides, Layer.gathered]

end Lowering

end Diglot
