import Diglot.Proofs.Association.Expression
import Diglot.Proofs.Debug.Statement

/-! # Units are compiled like their aligned units

While a chain is being split, the state remembers its segments, and two runs on trees that differ in how dots are
associated remember segments that differ so too. `Aligns m n` says that two steps return the same and leave the
same but for that. Statements align with their aligned statements (`Aligns.statement`); a session keeps no
segments, so compiling a unit comes to the same as compiling any unit that differs from it only in how the dots of
its chains are associated (`Session.compile_congr_aligned`).
-/

set_option autoImplicit false

namespace Diglot

namespace Lowering

variable {α β : Type}

/-! ## Values and stores of statements -/

section
variable {n m : Node}

/-- What is lowered of a chain are its segments. -/
theorem lowerNode_realign (part : LowerPart) (n : Node) : lowerNode part n.realign = lowerNode part n := by
  cases h : n.segments with
  | error e => rw [Node.realign_of_error h]
  | ok l =>
    cases n with
    | member left right op lastFactor span =>
      obtain ⟨a, b, -, -, hrealign⟩ := Node.realign_of_segments h
      have hsegments := Node.segments_realign (.member left right op lastFactor span)
      rw [hrealign] at hsegments ⊢
      simp only [lowerNode, chainSegments, hsegments]
    | _ => rfl

theorem probeNode_realign (part : ProbePart) (n : Node) : probeNode part n.realign = probeNode part n := by
  cases h : n.segments with
  | error e => rw [Node.realign_of_error h]
  | ok l =>
    cases n with
    | member left right op lastFactor span =>
      obtain ⟨a, b, -, -, hrealign⟩ := Node.realign_of_segments h
      have hsegments := Node.segments_realign (.member left right op lastFactor span)
      rw [hrealign] at hsegments ⊢
      simp only [probeNode, chainSegments, hsegments]
    | _ => rfl

theorem expression_realign (n : Node) : expression n.realign = expression n := by
  rw [expression_eq, expression_eq, lowerNode_realign]

theorem probe_realign (n : Node) : probe n.realign = probe n := by
  unfold probe
  rw [Node.weight_realign]
  cases n.weight with
  | zero => rfl
  | succ depth => exact probeNode_realign _ n

/-- Both trees are probed and lowered alike. -/
structure SameValue (n m : Node) : Prop where
  probe : probe n = probe m
  expression : expression n = expression m

theorem SameValue.aligned (n : Node) : SameValue n.aligned n := ⟨probe_aligned n, expression_aligned n⟩

/-- A chain of two is lowered like that of the aligned two. -/
theorem SameValue.member (left right : Node) (op : Operator) (lastFactor : Bool) (span : Span) :
    SameValue (.member left.aligned right.aligned op lastFactor span) (.member left right op lastFactor span) := by
  have hsame := SameValue.aligned (.member left right op lastFactor span)
  rw [Node.aligned] at hsame
  exact ⟨(probe_realign _).symm.trans hsame.probe, (expression_realign _).symm.trans hsame.expression⟩

theorem graphStatement_congr {target target' : Node} (htarget : ∀ type, assignTo target' type = assignTo target type)
    (h : SameValue n m) (span : Span) (isTemporary isLast : Bool) :
    graphStatement target' n span isTemporary isLast = graphStatement target m span isTemporary isLast := by
  unfold graphStatement lowerValueAndStore
  simp only [h.probe, h.expression, htarget]

theorem returnStatement_aligned (value : Option Node) (span : Span) :
    returnStatement (value.map Node.aligned) span = returnStatement value span := by
  have hreturned : lowerReturned (value.map Node.aligned) span = lowerReturned value span := by
    cases value with
    | none => rfl
    | some v => exact expression_aligned v
  unfold returnStatement
  rw [hreturned]

end

/-! ## Headers -/

section
variable (n : Node)

theorem assignedName?_aligned : n.aligned.assignedName? = n.assignedName? := by
  cases n with
  | assign target value span =>
    cases target with
    | identifier ident =>
      simp only [Node.aligned, Node.assignedName?, ident.aligned_eq]
      rfl
    | member left right op lastFactor span =>
      obtain ⟨a, b, o, h⟩ := Node.aligned_member left right op lastFactor span
      simp only [Node.aligned] at h ⊢
      rw [h]
      rfl
    | _ => rfl
  | member left right op lastFactor span =>
    obtain ⟨a, b, o, h⟩ := Node.aligned_member left right op lastFactor span
    rw [h]
    rfl
  | varDecl v => simp only [Node.aligned, Node.assignedName?, v.aligned_eq]
  | _ => rfl

theorem lowerCondition_aligned (span : Span) : lowerCondition n.aligned span = lowerCondition n span := by
  unfold lowerCondition
  rw [expression_aligned]

theorem isReturn_aligned : isReturn n.aligned = isReturn n := by
  cases n with
  | member left right op lastFactor span =>
    obtain ⟨a, b, o, h⟩ := Node.aligned_member left right op lastFactor span
    rw [h]
    rfl
  | _ => rfl

theorem isSplit_aligned (o : Options) : isSplit o n.aligned = isSplit o n := by
  cases n with
  | member left right op lastFactor span =>
    obtain ⟨a, b, o', h⟩ := Node.aligned_member left right op lastFactor span
    rw [h]
    rfl
  | _ => rfl

end

theorem unitFrame_aligned (block : Nat) (scope : Scope) (dialect : Dialect) (unit : List Node) :
    unitFrame block scope dialect (unit.map Node.aligned) = unitFrame block scope dialect unit := by
  have hforward : forwardNames (unit.map Node.aligned) = forwardNames unit := by
    simp only [forwardNames, List.filterMap_map, Function.comp_def, assignedName?_aligned]
  unfold unitFrame
  rw [hforward]

theorem closeUnit_aligned (unit : List Node) : closeUnit (unit.map Node.aligned) = closeUnit unit := by
  have hlast : (unit.map Node.aligned).getLast?.map isReturn = unit.getLast?.map isReturn := by
    simp only [List.getLast?_map, Option.map_map, Function.comp_def, isReturn_aligned]
  unfold closeUnit
  rw [hlast]

mutual

/-- Constants have no chains in them. -/
theorem isConstant_aligned : (n : Node) → n.aligned.isConstant = n.isConstant ∧ (n.isConstant = true → n.aligned = n)
  | .identifier _ => ⟨rfl, nofun⟩
  | .member left right op lastFactor span => by
    obtain ⟨a, b, o, h⟩ := Node.aligned_member left right op lastFactor span
    rw [h]
    exact ⟨rfl, nofun⟩
  | .call _ => ⟨rfl, nofun⟩
  | .literal .. => ⟨rfl, fun _ => rfl⟩
  | .list items dims guides span => by
    have hitems := areConstant_aligned items
    refine ⟨?_, fun h => ?_⟩
    · simp only [Node.aligned, Node.alignedAll_eq, Node.isConstant, List.isEmpty_map] at hitems ⊢
      rw [hitems.1]
    · simp only [Node.isConstant, Bool.and_eq_true, List.isEmpty_iff] at h
      rw [Node.aligned, hitems.2 h.2, h.1]
      rfl
  | .range first last step span => by
    have hfirst := isConstant_aligned first
    have hlast := isConstant_aligned last
    have hstep := isConstant?_aligned step
    refine ⟨?_, fun h => ?_⟩
    · simp only [Node.aligned, Node.isConstant, hfirst.1, hlast.1, hstep.1]
    · simp only [Node.isConstant, Bool.and_eq_true] at h
      rw [Node.aligned, hfirst.2 h.1.1, hlast.2 h.1.2, hstep.2 h.2]
  | .unary op operand span => by
    have hoperand := isConstant_aligned operand
    refine ⟨hoperand.1, fun h => ?_⟩
    rw [Node.aligned, hoperand.2 h]
  | .binary left op right span => by
    have hleft := isConstant_aligned left
    have hright := isConstant_aligned right
    refine ⟨?_, fun h => ?_⟩
    · simp only [Node.aligned, Node.isConstant, hleft.1, hright.1]
    · simp only [Node.isConstant, Bool.and_eq_true] at h
      rw [Node.aligned, hleft.2 h.1, hright.2 h.2]
  | .group inner dims guides span => by
    have hinner := isConstant_aligned inner
    refine ⟨?_, fun h => ?_⟩
    · simp only [Node.aligned, Node.alignedAll_eq, Node.isConstant, List.isEmpty_map, hinner.1]
    · simp only [Node.isConstant, Bool.and_eq_true, List.isEmpty_iff] at h
      rw [Node.aligned, hinner.2 h.2, h.1]
      rfl
  | .defaultArg _ => ⟨rfl, nofun⟩
  | .dynamic _ => ⟨rfl, nofun⟩
  | .assign .. => ⟨rfl, nofun⟩
  | .ret .. => ⟨rfl, nofun⟩
  | .branch .. => ⟨rfl, nofun⟩
  | .loop .. => ⟨rfl, nofun⟩
  | .breakLoop _ => ⟨rfl, nofun⟩
  | .continueLoop _ => ⟨rfl, nofun⟩
  | .block .. => ⟨rfl, nofun⟩
  | .function _ => ⟨rfl, nofun⟩
  | .classDecl _ => ⟨rfl, nofun⟩
  | .varDecl _ => ⟨rfl, nofun⟩

theorem areConstant_aligned : (l : List Node) → Node.areConstant (Node.alignedAll l) = Node.areConstant l ∧
    (Node.areConstant l = true → Node.alignedAll l = l)
  | [] => ⟨rfl, fun _ => rfl⟩
  | n :: rest => by
    have hn := isConstant_aligned n
    have hrest := areConstant_aligned rest
    refine ⟨?_, fun h => ?_⟩
    · simp only [Node.alignedAll, Node.areConstant, hn.1, hrest.1]
    · simp only [Node.areConstant, Bool.and_eq_true] at h
      rw [Node.alignedAll, hn.2 h.1, hrest.2 h.2]

theorem isConstant?_aligned : (n : Option Node) → Node.isConstant? (Node.alignedPart n) = Node.isConstant? n ∧
    (Node.isConstant? n = true → Node.alignedPart n = n)
  | none => ⟨rfl, fun _ => rfl⟩
  | some n => ⟨(isConstant_aligned n).1, fun h => congrArg some ((isConstant_aligned n).2 h)⟩

end

/-- An attribute that is kept has constant arguments, and is kept as it is. -/
theorem checkAttribute_aligned (classes : ClassTable) (a : Call) :
    checkAttribute classes a.aligned = checkAttribute classes a := by
  have hfind (args : List Node) : (args.map Node.aligned).find? (fun arg => !arg.isConstant) =
      (args.find? fun arg => !arg.isConstant).map Node.aligned := by
    rw [List.find?_map]
    congr 2
    funext n
    simp [(isConstant_aligned n).1]
  have hkept {args : List Node} (h : args.find? (fun arg => !arg.isConstant) = none) :
      args.map Node.aligned = args := by
    refine List.map_congr_left (g := id) (fun n hn => (isConstant_aligned n).2 ?_) |>.trans (List.map_id _)
    simpa using List.find?_eq_none.mp h n hn
  rw [a.aligned_eq]
  unfold checkAttribute
  simp only [hfind, List.length_map]
  cases classes.indexOf? (attributeClass a.name) with
  | none => rfl
  | some cls =>
    cases harg : a.args.find? fun arg => !arg.isConstant with
    | none => rw [hkept harg]; rfl
    | some arg => simp only [Option.map_some, arg.span_aligned]

theorem lowerAttributes_aligned (attributes : List Call) :
    lowerAttributes (attributes.map Call.aligned) = lowerAttributes attributes := by
  induction attributes with
  | nil => rfl
  | cons a rest ih => simp only [List.map_cons, lowerAttributes, checkAttribute_aligned, ih]

theorem resolveParams_aligned (params : List Parameter) :
    resolveParams (params.map Parameter.aligned) = resolveParams params := by
  induction params with
  | nil => rfl
  | cons p rest ih => simp only [List.map_cons, resolveParams, p.aligned_eq, Option.isSome_map, ih]

theorem lowerMembers_aligned (members : List Variable) :
    lowerMembers (members.map Variable.aligned) = lowerMembers members := by
  induction members with
  | nil => rfl
  | cons v rest ih => simp only [List.map_cons, lowerMembers, v.aligned_eq, Declaration.ofVariable, ih]

theorem initializer?_aligned (v : Variable) : initializer? v.aligned = (initializer? v).map Node.aligned := by
  rw [v.aligned_eq]
  cases h : v.value <;> simp [initializer?, h, Node.aligned, Identifier.aligned, Identifier.plain, Node.alignedAll]

/-! ## Steps that align -/

/-- The state with the remembered segments aligned. -/
def State.aligned (s : State) : State := { s with pointers := s.pointers.map Node.aligned }

/-- From a state with aligned segments `n` returns what `m` returns, and leaves what `m` leaves with its segments
aligned. -/
def Aligns (m n : Lower α) : Prop := ∀ f s, n f s.aligned = seen State.aligned (m f s)

/-- A mild step keeps the remembered segments, and does not look at them. -/
theorem Mild.aligns {m : Lower α} (h : Tame false false m) : Aligns m m := by
  intro f s
  have hpair {u v : State} (huv : v.trimmed = u.trimmed) (hu : Kept false s u) (hv : Kept false s.aligned v) :
      v = u.aligned := by
    have hkept : v.pointers = u.aligned.pointers :=
      hv.pointers.trans (congrArg (List.map Node.aligned) hu.pointers.symm)
    rw [State.eq_of_trimmed huv.symm, hkept]
    rfl
  have hrun := h.same f s.aligned s rfl
  have hs := h.keeps f s
  have ht := h.keeps f s.aligned
  cases hms : m f s <;> cases hmt : m f s.aligned <;> rw [hms, hmt] at hrun <;> rw [hms] at hs <;>
    rw [hmt] at ht
  · obtain ⟨rfl, huv⟩ := EStateM.Result.ok.inj hrun
    exact congrArg (EStateM.Result.ok _) (hpair huv hs ht)
  · cases hrun
  · cases hrun
  · obtain ⟨rfl, huv⟩ := EStateM.Result.error.inj hrun
    exact congrArg (EStateM.Result.error _) (hpair huv hs ht)

namespace Aligns

variable {m n : Lower α} {k l : α → Lower β}

theorem pure (a : α) : Aligns (Pure.pure a : Lower α) (Pure.pure a) := fun _ _ => rfl

theorem bind (hm : Aligns m n) (hk : ∀ a, Aligns (k a) (l a)) : Aligns (m >>= k) (n >>= l) := by
  intro f s
  rw [run_bind, run_bind, hm f s]
  cases m f s with
  | ok a t => exact hk a f t
  | error e t => rfl

theorem after (hm : Tame false false m) (hk : ∀ a, Aligns (k a) (l a)) : Aligns (m >>= k) (m >>= l) :=
  bind hm.aligns hk

theorem ite {c : Prop} [Decidable c] {m' n' : Lower α} (hm : Aligns m n) (hn : Aligns m' n') :
    Aligns (if c then m else m') (if c then n else n') := by
  split
  · exact hm
  · exact hn

theorem onlyIf {c : Prop} [Decidable c] {m n : Lower β} {k l : Lower α} (hm : Aligns m n) (hk : Aligns k l) :
    Aligns (if c then m >>= fun _ => k else k) (if c then n >>= fun _ => l else l) := ite (bind hm fun _ => hk) hk

theorem halt (issue : Issue) (message : String) (span : Span) :
    Aligns (Lowering.halt issue message span : Lower α) (Lowering.halt issue message span) :=
  (Mild.halt _ _ _).aligns

theorem withReader (g : Frame → Frame) (h : Aligns m n) :
    Aligns (MonadWithReader.withReader g m : Lower α) (MonadWithReader.withReader g n) := fun f => h (g f)

theorem forM {l : List β} {g : β → β} {k k' : β → Lower Unit} (h : ∀ a ∈ l, Aligns (k a) (k' (g a))) :
    Aligns (l.forM k) ((l.map g).forM k') := by
  induction l with
  | nil => exact pure ()
  | cons a rest ih => exact bind (h a (List.mem_cons_self ..)) fun _ => ih fun b hb => h b (List.mem_cons_of_mem a hb)

theorem forM_self {l : List β} {k : β → Lower Unit} (h : ∀ a ∈ l, Aligns (k a) (k a)) :
    Aligns (l.forM k) (l.forM k) := by
  have hmap := forM (l := l) (g := id) h
  rwa [List.map_id] at hmap

theorem withSession {k l : Session → Lower α} (h : ∀ s, Aligns (k s) (l s)) :
    Aligns (getSession >>= k) (getSession >>= l) := fun f s => h s.session f s

theorem withBlock {id : Nat} {k l : Block → Lower α} (h : ∀ b, Aligns (k b) (l b)) :
    Aligns (getBlock id >>= k) (getBlock id >>= l) := bind (by
  intro f s
  have hsession : s.aligned.session = s.session := rfl
  rw [run_getBlock, run_getBlock, hsession]
  cases s.session.block? id <;> rfl) h

theorem withSight {k l : Sight → Lower α} (h : ∀ v, Aligns (k v) (l v)) : Aligns (sight >>= k) (sight >>= l) :=
  bind (by
    intro f s
    have hsession : s.aligned.session = s.session := rfl
    rw [run_sight, run_sight, hsession]
    cases sightIn f s.session <;> rfl) h

theorem modifySession (g : Session → Session) : Aligns (Lowering.modifySession g) (Lowering.modifySession g) :=
  fun _ _ => rfl

theorem modifyBlock (id : Nat) (g : Block → Block) : Aligns (modifyBlock id g) (modifyBlock id g) :=
  withBlock fun _ => modifySession _

theorem addBlock (kind : BlockKind) (dialect : Dialect) (parent : Nat) :
    Aligns (addBlock kind dialect parent) (addBlock kind dialect parent) :=
  withSession fun _ => withBlock fun _ => bind (modifySession _) fun _ => pure _

theorem nested (frame : Frame) (h : Aligns m n) : Aligns (nested frame m) (nested frame n) := by
  intro f s
  have hrun : n frame { session := s.session } = seen State.aligned (m frame { session := s.session }) :=
    h frame { session := s.session }
  have hsession : s.aligned.session = s.session := rfl
  rw [run_nested, run_nested, hsession, hrun]
  cases m frame { session := s.session } <;> rfl

theorem countingLocals {m n : Lower Unit} (h : Aligns m n) : Aligns (countingLocals m) (countingLocals n) := by
  intro f s
  have hrun := h f { s with session := s.session.setLocals 0 }
  have hstart : ({ s.aligned with session := s.aligned.session.setLocals 0 } : State) =
      { s with session := s.session.setLocals 0 }.aligned := rfl
  rw [run_countingLocals, run_countingLocals, hstart, hrun]
  cases m f { s with session := s.session.setLocals 0 } <;> rfl

theorem patch (pending target : Nat) : Aligns (patch pending target) (patch pending target) := by
  intro f s
  have hsession : s.aligned.session = s.session := rfl
  rw [run_patch, run_patch, hsession]
  cases codeOf? f s.session with
  | none => rfl
  | some code => cases h : patched code pending target f.block <;> simp only [h] <;> rfl

theorem patchAll (pending : List Nat) (target : Nat) : Aligns (patchAll pending target) (patchAll pending target) :=
  forM_self fun p _ => patch p target

end Aligns

/-! ## Dependency nodes -/

/-- The chain that is put together again from aligned segments has the same dependency. -/
theorem Sight.dependency?_reassemble_aligned (v : Sight) (l : List Node) :
    (Node.reassemble (l.map Node.aligned)).bind v.dependency? = (Node.reassemble l).bind v.dependency? := by
  have hfold (rest : List Node) (root root' : Node)
      (h : root'.segments = root.segments.map (List.map Node.aligned)) :
      ((rest.map Node.aligned).foldl Node.join root').segments =
        (rest.foldl Node.join root).segments.map (List.map Node.aligned) := by
    induction rest generalizing root root' with
    | nil => exact h
    | cons n rest ih =>
      refine ih _ _ ?_
      simp only [Node.join, Node.segments, h, Node.segments_aligned]
      cases root.segments <;> cases n.segments <;> simp [Except.map]
  have hmember (rest : List Node) (a b : Node) :
      ∃ left right span, rest.foldl Node.join (a.join b) = .member left right .dot false span := by
    induction rest generalizing a b with
    | nil => exact ⟨a, b, _, rfl⟩
    | cons n rest ih => exact ih _ _
  have hdependency {n n' : Node} (hn : ∃ left right span, n = .member left right .dot false span)
      (hn' : ∃ left right span, n' = .member left right .dot false span)
      (h : n'.segments = n.segments.map (List.map Node.aligned)) : v.dependency? n' = v.dependency? n := by
    obtain ⟨left, right, span, rfl⟩ := hn
    obtain ⟨left', right', span', rfl⟩ := hn'
    simp only [dependency?, h]
    cases (Node.member left right .dot false span).segments with
    | error e => rfl
    | ok l => simp only [Except.map, Except.toOption, Option.bind_some, v.walk_aligned, List.length_map]
  obtain _ | ⟨a, _ | ⟨b, rest⟩⟩ := l
  · rfl
  · rfl
  · have hsegments : (a.aligned.join b.aligned).segments = (a.join b).segments.map (List.map Node.aligned) := by
      simp only [Node.join, Node.segments, Node.segments_aligned]
      cases a.segments <;> cases b.segments <;> simp [Except.map]
    exact hdependency (hmember rest a b) (hmember (rest.map Node.aligned) a.aligned b.aligned)
      (hfold rest _ _ hsegments)

namespace Aligns

theorem recordSplitChain : Aligns recordSplitChain recordSplitChain := by
  refine withSight fun v => ?_
  have hrest {m n : Lower Unit} (h : Aligns m n) : Aligns (modify (fun s : State => { s with pointers := [] }) >>= fun _ => m)
      (modify (fun s : State => { s with pointers := [] }) >>= fun _ => n) := bind (fun _ _ => rfl) fun _ => h
  intro f s
  rw [run_bind, run_bind, run_get, run_get]
  have hpath : (Node.reassemble s.aligned.pointers).bind v.dependency? =
      (Node.reassemble s.pointers).bind v.dependency? := v.dependency?_reassemble_aligned s.pointers
  dsimp only
  rw [hpath]
  cases (Node.reassemble s.pointers).bind v.dependency? with
  | none => exact hrest (pure _) f s
  | some path =>
    refine hrest (after (.note _ _ _) fun _ => ?_) f s
    exact (Mild.recordRead path false).aligns

theorem freshNode (isTemporary : Bool) : Aligns (freshNode isTemporary) (freshNode isTemporary) := by
  have huid : Aligns nextUid nextUid := withSession fun _ => bind (modifySession _) fun _ => pure _
  exact after .read fun f => bind huid fun uid => pure _

theorem tracking (node : GraphNode) {m n : Lower α} (h : Aligns m n) : Aligns (tracking node m) (tracking node n) := by
  have hresult (a : α) : Aligns (do return (a, (← get).node) : Lower (α × GraphNode)) (do return (a, (← get).node)) :=
    fun _ _ => rfl
  exact bind (fun _ _ => rfl) fun _ => bind (withReader _ h) hresult

theorem commit (node : GraphNode) : Aligns (commit node) (commit node) :=
  onlyIf (Mild.defect _).aligns (after (.note _ _ _) fun _ => modifyBlock _ _)

theorem hold (node : GraphNode) : Aligns (hold node) (hold node) := fun _ _ => rfl

theorem pushPointers (segments : List Node) :
    Aligns (pushPointers segments) (pushPointers (segments.map Node.aligned)) := by
  intro f s
  refine congrArg (EStateM.Result.ok ()) ?_
  simp [State.aligned]

theorem lowerValueAndStore (target value : Node) (isLast : Bool) :
    Aligns (lowerValueAndStore target value isLast) (lowerValueAndStore target value isLast) := by
  refine after .pc fun _ => after (.expression value) fun type => after .pc fun _ => ?_
  refine onlyIf recordSplitChain (after (Mild.refineType type) fun _ => ?_)
  exact after (.assignTo _ _) fun _ => pure _

theorem graphStatement {target target' value value' : Node}
    (htarget : ∀ type, assignTo target' type = assignTo target type) (hvalue : SameValue value' value) (span : Span)
    (isTemporary isLast : Bool) : Aligns (graphStatement target value span isTemporary isLast)
      (graphStatement target' value' span isTemporary isLast) := by
  rw [graphStatement_congr htarget hvalue]
  refine bind (freshNode _) fun fresh => after (.probe _) fun _ => ?_
  refine bind (tracking _ (lowerValueAndStore _ _ _)) fun result => ?_
  exact after (.emitSilent _ _) fun _ => after (.note _ _ _) fun _ => pure _

/-- The factors of a split chain are lowered alike, however each is built from the one before it. -/
theorem lowerFactors (target : Node) (span : Span) {factor factor' : Node} (h : SameValue factor' factor)
    (anchor : Option Nat) (rest : List Node) :
    Aligns (lowerFactors target span factor anchor rest)
      (lowerFactors target.aligned span factor' anchor (rest.map Node.aligned)) := by
  induction rest generalizing factor factor' anchor with
  | nil =>
    refine after (.nextTemporary _) fun name => ?_
    refine bind (withReader _ (graphStatement (fun _ => rfl) h _ _ _)) fun _ => bind (hold _) fun _ => ?_
    exact bind (graphStatement (assignTo_aligned target) ⟨rfl, rfl⟩ _ _ _) fun _ => hold _
  | cons segment rest ih =>
    refine after (.nextTemporary _) fun name => ?_
    refine bind (withReader _ (graphStatement (fun _ => rfl) h _ _ _)) fun _ => bind (hold _) fun _ => ?_
    refine bind (pushPointers [segment]) fun _ => ?_
    have hempty : (rest.map Node.aligned).isEmpty = rest.isEmpty := List.isEmpty_map
    rw [hempty]
    exact ih (.member (.identifier (.plain name span)) segment _ _ _) none

theorem splitChain (target : Node) (segments : List Node) (span : Span) :
    Aligns (splitChain target segments span) (splitChain target.aligned (segments.map Node.aligned) span) := by
  refine withSight fun v => ?_
  rw [v.splitAnchor?_aligned]
  have hroot (root : Node) (rest : List Node) : Aligns (do
      Lowering.pushPointers [root]
      Lowering.lowerFactors target span root none rest) (do
      Lowering.pushPointers [root.aligned]
      Lowering.lowerFactors target.aligned span root.aligned none (rest.map Node.aligned)) :=
    bind (pushPointers [root]) fun _ => lowerFactors target span (.aligned root) none rest
  cases hcls : splitAnchor? v segments with
  | none =>
    cases segments with
    | nil => exact (Mild.defect _).aligns
    | cons root rest => exact hroot root rest
  | some cls =>
    match segments with
    | [] => exact (Mild.defect _).aligns
    | [root] => exact hroot root []
    | root :: second :: rest =>
      exact bind (pushPointers [root, second]) fun _ =>
        lowerFactors target span (.member root second _ _ _) (some cls) rest

theorem lowerSplit (target chain : Node) (span : Span) :
    Aligns (lowerSplit target chain span) (lowerSplit target.aligned chain.aligned span) := by
  unfold Lowering.lowerSplit
  rw [bind_chainSegments_aligned]
  refine after (.chainSegments chain) fun segments => bind (fun _ _ => rfl) fun _ => ?_
  refine bind (splitChain _ _ _) fun _ => ?_
  have hheld (held : List GraphNode) : Aligns (do
      modify fun s : State => { s with pointers := [], held := [] }
      held.forM Lowering.commit) (do
      modify fun s : State => { s with pointers := [], held := [] }
      held.forM Lowering.commit) := by
    refine bind (fun _ _ => rfl) fun _ => ?_
    exact forM_self fun node _ => commit node
  exact fun f s => hheld s.held f s

theorem lowerUpdate (target value : Node) (span : Span) :
    Aligns (lowerUpdate target value span) (lowerUpdate target.aligned value.aligned span) := by
  refine after .forgetCallee fun _ => withSession fun s => ?_
  rw [isSplit_aligned]
  refine ite (lowerSplit _ _ _) (bind ?_ fun node => commit node)
  exact graphStatement (assignTo_aligned target) (.aligned value) _ _ _

/-! ## Returning and declaring -/

theorem returnStatement (value : Option Node) (span : Span) :
    Aligns (returnStatement value span) (returnStatement value span) := by
  have hrest (procedure : Option Procedure) : Aligns (finishReturn value span procedure)
      (finishReturn value span procedure) := by
    refine after .pc fun startPc => after (.lowerReturned _ _) fun type => ?_
    refine after .pc fun endPc => bind (fun _ _ => rfl) fun _ => ?_
    exact after (.checkReturned _ _ _) fun _ => after (.emitResult _) fun _ => pure _
  refine after .currentProcedure? fun procedure => ?_
  cases procedure with
  | none => exact hrest none
  | some p => exact onlyIf (halt _ _ _) (hrest (some p))

theorem lowerReturn (value : Option Node) (span : Span) :
    Aligns (lowerReturn value span) (lowerReturn (value.map Node.aligned) span) := by
  unfold Lowering.lowerReturn
  rw [returnStatement_aligned]
  refine bind (freshNode _) fun fresh => bind (tracking _ (returnStatement _ _)) fun result => ?_
  exact after .classScope fun _ => commit _

theorem registerProcedure (p : Procedure) : Aligns (registerProcedure p) (registerProcedure p) := by
  refine after .read fun f => withSession fun s => ?_
  split
  · split
    · exact (Mild.defect _).aligns
    · exact bind (modifySession _) fun _ => pure _
  · exact bind (modifySession _) fun _ => pure _

section
variable {p q : LowerStatement} (h : ∀ n, Aligns (p n) (q n.aligned))
include h

theorem lowerAll (l : List Node) : Aligns (lowerAll p l) (lowerAll q (l.map Node.aligned)) := by
  induction l with
  | nil => exact pure _
  | cons n rest ih => exact bind (h n) fun _ => bind ih fun _ => pure _

theorem lowerUnit (block : Nat) (scope : Scope) (dialect : Dialect) (unit : List Node) (params : List Argument) :
    Aligns (lowerUnit p block scope dialect unit params)
      (lowerUnit q block scope dialect (unit.map Node.aligned) params) := by
  unfold Lowering.lowerUnit
  rw [unitFrame_aligned, closeUnit_aligned]
  refine nested _ (after (.declareParams params) fun _ => bind (lowerAll h unit) fun _ => ?_)
  exact (Mild.closeUnit unit).aligns

theorem lowerBlock (dialect : Dialect) (body : List Node) (span : Span) :
    Aligns (lowerBlock p dialect body span) (lowerBlock q dialect (body.map Node.aligned) span) := by
  refine after .read fun f => bind (addBlock _ _ _) fun child => bind (modifyBlock _ _) fun _ => ?_
  refine bind (lowerUnit h _ _ _ _ _) fun _ => withBlock fun b => ?_
  exact after (.emit _ _) fun _ => pure _

theorem lowerFunction (fn : Function) (isGenerated : Bool) :
    Aligns (lowerFunction p fn isGenerated) (lowerFunction q fn.aligned isGenerated) := by
  rw [fn.aligned_eq]
  unfold Lowering.lowerFunction
  simp only [resolveParams_aligned, lowerAttributes_aligned]
  refine after (.resolveType _ _) fun returns => after (.resolveParams _) fun args => ?_
  refine after (.lowerAttributes _) fun attributes => bind (registerProcedure _) fun r => ?_
  refine after .read fun f => bind (addBlock _ _ _) fun body => bind (modifyBlock _ _) fun _ => ?_
  refine bind (modifySession _) fun _ => after (.note _ _ _) fun _ => ?_
  refine bind (countingLocals (lowerUnit h _ _ _ _ _)) fun locals => ?_
  exact withBlock fun b => modifySession _

theorem lowerVariable (v : Variable) : Aligns (lowerVariable p v) (lowerVariable q v.aligned) := by
  unfold Lowering.lowerVariable
  rw [initializer?_aligned]
  simp only [v.aligned_eq, Declaration.ofVariable]
  refine after (.resolveType _ _) fun type => after (.allocate _) fun r => ?_
  refine after (.getSymbol r) fun symbol => after (.emitHeapBox symbol) fun _ => ?_
  cases initializer? v with
  | none => exact pure _
  | some assignment => exact bind (h assignment) fun _ => pure _

theorem lowerClassBody (c : ClassDecl) : Aligns (lowerClassBody p c) (lowerClassBody q c.aligned) := by
  have hfilter (keep : Variable → Bool) (hkeep : ∀ v, keep v.aligned = keep v) :
      (c.members.map Variable.aligned).filter keep = (c.members.filter keep).map Variable.aligned := by
    simp only [List.filter_map, Function.comp_def, hkeep]
  have hfirst (l : List Variable) :
      (l.map Variable.aligned).filterMap initializer? = (l.filterMap initializer?).map Node.aligned := by
    simp only [List.filterMap_map, List.map_filterMap, Function.comp_def, initializer?_aligned]
  have hstatic (v : Variable) : v.aligned.isStatic = v.isStatic := by rw [v.aligned_eq]
  have hinitializer (assignments : List Node) : (staticInitializer? (assignments.map Node.aligned)).toList =
      (staticInitializer? assignments).toList.map Function.aligned := by
    unfold staticInitializer?
    rw [List.isEmpty_map]
    split
    · rfl
    · simp [generated, Function.aligned_eq]
  have hmethod (assignments : List Node) (fn : Function) :
      (withInitializers assignments fn).aligned = withInitializers (assignments.map Node.aligned) fn.aligned := by
    rw [fn.aligned_eq, Function.aligned_eq]
    unfold withInitializers
    cases h : fn.isConstructor <;> simp [h]
  have hany : (c.methods.map Function.aligned).any Function.isConstructor = c.methods.any Function.isConstructor := by
    simp only [List.any_map, Function.comp_def]
    congr 1
    funext fn
    rw [fn.aligned_eq]
  have haccessors (v : Variable) : getterOf v.aligned = (getterOf v).aligned ∧ setterOf v.aligned = (setterOf v).aligned := by
    rw [v.aligned_eq]
    exact ⟨rfl, rfl⟩
  rw [c.aligned_eq]
  unfold Lowering.lowerClassBody
  simp only [lowerMembers_aligned, hfilter (fun v => !v.isStatic) fun v => congrArg (!·) (hstatic v),
    hfilter Variable.isStatic hstatic, hfirst, hinitializer, hany]
  refine after (.lowerMembers _) fun _ => bind (forM fun v _ => ?_) fun _ => bind (forM fun fn _ => ?_) fun _ =>
    bind (forM fun fn _ => ?_) fun _ => ite ?_ (pure _)
  · rw [(haccessors v).1, (haccessors v).2]
    exact bind (lowerFunction h _ _) fun _ => lowerFunction h _ _
  · exact lowerFunction h fn true
  · rw [← hmethod]
    exact lowerFunction h _ false
  · have hdefault (assignments : List Node) : defaultConstructor c.name (assignments.map Node.aligned) =
        (defaultConstructor c.name assignments).aligned := by
      simp [defaultConstructor, generated, Function.aligned_eq]
    rw [hdefault]
    exact lowerFunction h _ true

theorem lowerClass (c : ClassDecl) : Aligns (lowerClass p c) (lowerClass q c.aligned) := by
  have hbody := lowerClassBody h c
  rw [c.aligned_eq] at hbody ⊢
  unfold Lowering.lowerClass
  simp only [lowerAttributes_aligned]
  refine after (.resolveBase c) fun base => after (.lowerAttributes _) fun attributes => withSession fun s => ?_
  split
  · exact halt _ _ _
  · exact bind (modifySession _) fun _ => after (.note _ _ _) fun _ => withReader _ hbody

theorem lowerTopLevelClass (c : ClassDecl) : Aligns (lowerTopLevelClass p c) (lowerTopLevelClass q c.aligned) := by
  have hclass := lowerClass h c
  rw [c.aligned_eq] at hclass ⊢
  exact after .mayDeclareClass fun _ => ite hclass (halt _ _ _)

/-! ## Statements -/

theorem associativeStatement (n : Node) : Aligns (associativeStatement p n) (associativeStatement q n.aligned) := by
  have hcontrol (span : Span) : Aligns (haltOnControl (α := Unit) span) (haltOnControl span) := halt _ _ _
  have hunnamed (n : Node) : Aligns (lowerUnnamed n) (lowerUnnamed n.aligned) := by
    unfold lowerUnnamed
    simp only [n.span_aligned]
    exact after (.nextTemporary _) fun name => lowerUpdate (.identifier (.plain name n.span)) n n.span
  cases n with
  | assign target value span => exact lowerUpdate target value span
  | ret value span =>
    simp only [Node.aligned, Lowering.associativeStatement, Node.alignedPart_eq]
    exact lowerReturn value span
  | varDecl v => exact lowerVariable h v
  | function f => exact lowerFunction h f false
  | classDecl c => exact lowerTopLevelClass h c
  | block dialect body span =>
    simp only [Node.aligned, Lowering.associativeStatement, Node.alignedAll_eq]
    exact lowerBlock h dialect body span
  | branch => exact hcontrol _
  | loop => exact hcontrol _
  | breakLoop => exact hcontrol _
  | continueLoop => exact hcontrol _
  | member left right op lastFactor span =>
    have hmember := hunnamed (.member left right op lastFactor span)
    obtain ⟨a, b, o, heq⟩ := Node.aligned_member left right op lastFactor span
    rw [heq] at hmember ⊢
    exact hmember
  | identifier ident => exact hunnamed (.identifier ident)
  | call c => exact hunnamed (.call c)
  | literal kind source span => exact hunnamed (.literal kind source span)
  | list items dims guides span => exact hunnamed (.list items dims guides span)
  | range first last step span => exact hunnamed (.range first last step span)
  | unary op operand span => exact hunnamed (.unary op operand span)
  | binary left op right span => exact hunnamed (.binary left op right span)
  | group inner dims guides span => exact hunnamed (.group inner dims guides span)
  | defaultArg span => exact hunnamed (.defaultArg span)
  | dynamic span => exact hunnamed (.dynamic span)

theorem lowerIf (body : List Node) (span : Span) :
    Aligns (lowerIf p body span) (lowerIf q (body.map Node.aligned) span) := by
  refine after (.emitStepping _ _ _) fun branch => bind (lowerAll h _) fun _ => ?_
  exact after .pc fun _ => bind (patch _ _) fun _ => pure _

theorem lowerIfElse (body otherwise : List Node) (span : Span) :
    Aligns (lowerIfElse p body otherwise span)
      (lowerIfElse q (body.map Node.aligned) (otherwise.map Node.aligned) span) := by
  refine after .pc fun _ => after (.emitCjmp _ _ _) fun _ => bind (lowerAll h _) fun _ => ?_
  refine after (.emitStepping _ _ _) fun _ => after .pc fun _ => bind (patch _ _) fun _ => ?_
  exact bind (lowerAll h _) fun _ => after .pc fun _ => bind (patch _ _) fun _ => pure _

theorem lowerWhile (condition : Node) (body : List Node) (span : Span) :
    Aligns (lowerWhile p condition body span) (lowerWhile q condition.aligned (body.map Node.aligned) span) := by
  unfold Lowering.lowerWhile
  rw [lowerCondition_aligned]
  refine after .pc fun _ => after (.lowerCondition _ _) fun _ => after .pc fun _ => ?_
  refine after (.emitCjmp _ _ _) fun _ => bind (withReader _ (lowerAll h _)) fun _ => ?_
  refine bind (patchAll _ _) fun _ => after (.emitStepping _ _ _) fun _ => after .pc fun _ => ?_
  exact bind (patch _ _) fun _ => patchAll _ _

theorem imperativeStatement (n : Node) : Aligns (imperativeStatement p n) (imperativeStatement q n.aligned) := by
  have hplain {m m' : Lower Unit} (hm : Aligns m m') : Aligns (plain m) (plain m') := bind hm fun _ => pure _
  have hdiscarded (n : Node) : Aligns (plain (lowerDiscarded n)) (plain (lowerDiscarded n.aligned)) := by
    unfold lowerDiscarded
    rw [expression_aligned, n.span_aligned]
    exact hplain (Mild.lowerDiscarded n).aligns
  cases n with
  | assign target value span =>
    refine hplain (after .forgetCallee fun _ => ?_)
    rw [expression_aligned]
    simp only [assignTo_aligned]
    exact after (.expression _) fun _ => after (.assignTo _ _) fun _ => pure _
  | ret value span =>
    simp only [Node.aligned, Lowering.imperativeStatement, Node.alignedPart_eq, returnStatement_aligned]
    exact hplain (returnStatement value span)
  | branch condition body otherwise span =>
    simp only [Node.aligned, Lowering.imperativeStatement, Node.alignedAll_eq, lowerCondition_aligned,
      List.isEmpty_map]
    exact after (.lowerCondition _ _) fun _ => ite (lowerIf h body span) (lowerIfElse h body otherwise span)
  | loop condition body span =>
    simp only [Node.aligned, Lowering.imperativeStatement, Node.alignedAll_eq]
    exact hplain (lowerWhile h condition body span)
  | breakLoop => exact (Mild.lowerExit _ _ _).aligns
  | continueLoop => exact (Mild.lowerExit _ _ _).aligns
  | varDecl v => exact hplain (lowerVariable h v)
  | block dialect body span =>
    simp only [Node.aligned, Lowering.imperativeStatement, Node.alignedAll_eq]
    exact hplain (lowerBlock h dialect body span)
  | function f => exact hplain (lowerFunction h f false)
  | classDecl c =>
    simp only [Node.aligned, Lowering.imperativeStatement, c.aligned_eq]
    exact halt _ _ _
  | member left right op lastFactor span =>
    have hmember := hdiscarded (.member left right op lastFactor span)
    obtain ⟨a, b, o, heq⟩ := Node.aligned_member left right op lastFactor span
    rw [heq] at hmember ⊢
    exact hmember
  | identifier ident => exact hdiscarded (.identifier ident)
  | call c => exact hdiscarded (.call c)
  | literal kind source span => exact hdiscarded (.literal kind source span)
  | list items dims guides span => exact hdiscarded (.list items dims guides span)
  | range first last step span => exact hdiscarded (.range first last step span)
  | unary op operand span => exact hdiscarded (.unary op operand span)
  | binary left op right span => exact hdiscarded (.binary left op right span)
  | group inner dims guides span => exact hdiscarded (.group inner dims guides span)
  | defaultArg span => exact hdiscarded (.defaultArg span)
  | dynamic span => exact hdiscarded (.dynamic span)

end

/-- A statement and its aligned statement. -/
theorem statement (n : Node) : Aligns (statement n) (statement n.aligned) := by
  have hwithin (depth : Nat) (n : Node) : Aligns (statementWithin depth n) (statementWithin depth n.aligned) := by
    induction depth generalizing n with
    | zero => exact (Mild.defect _).aligns
    | succ depth ih =>
      refine after .read fun f => ?_
      cases f.dialect with
      | associative => exact bind (associativeStatement ih n) fun _ => pure _
      | imperative => exact imperativeStatement ih n
  unfold Lowering.statement
  rw [n.weight_aligned]
  exact hwithin _ n

end Aligns

end Lowering

/-! ## Units -/

namespace Session

open Lowering

/-- A unit and its aligned unit are compiled alike. -/
theorem compile_aligned (s : Session) (unit : List Node) (dialect : Dialect) :
    s.compile (unit.map Node.aligned) dialect = s.compile unit dialect := by
  have hcode : Aligns (lowerCode unit) (lowerCode (unit.map Node.aligned)) := by
    unfold lowerCode
    rw [closeUnit_aligned]
    exact Aligns.bind (Aligns.lowerAll Aligns.statement unit) fun _ => (Mild.closeUnit unit).aligns
  rw [compile_eq, compile_eq, unitFrame_aligned]
  have hrun := hcode (unitFrame (s.unitStart dialect).1 .global dialect unit) { session := (s.unitStart dialect).2 }
  change lowerCode (unit.map Node.aligned) _ { session := (s.unitStart dialect).2 } = _ at hrun
  rw [hrun]
  cases lowerCode unit _ { session := (s.unitStart dialect).2 } <;> rfl

/-- Two units that differ only in how the dots of their chains are associated are compiled alike: with the same
result, and to the same session. -/
theorem compile_congr_aligned (s : Session) {unit unit' : List Node}
    (h : unit.map Node.aligned = unit'.map Node.aligned) (dialect : Dialect) :
    s.compile unit dialect = s.compile unit' dialect := by
  rw [← compile_aligned, h, compile_aligned]

/-- The units `x = (a.b).c` and `x = a.(b.c)` are split alike. -/
theorem three_names_compile_alike :
    let left := Node.assign (bareName "x") (((bareName "a").join (bareName "b")).join (bareName "c")) .nil
    let right := Node.assign (bareName "x") ((bareName "a").join ((bareName "b").join (bareName "c"))) .nil
    left ≠ right ∧ [left].map Node.aligned = [right].map Node.aligned ∧
      (Session.new { fullSsa := true }).compile [left] .associative =
        (Session.new { fullSsa := true }).compile [right] .associative := by
  intro left right
  have haligned : [left].map Node.aligned = [right].map Node.aligned := rfl
  refine ⟨fun h => ?_, haligned, compile_congr_aligned _ haligned .associative⟩
  injection h with _ hvalue
  injection hvalue with hleft
  cases hleft

end Session

end Diglot
