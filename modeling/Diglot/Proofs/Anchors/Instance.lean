import Diglot.Proofs.Anchors.Passes
import Diglot.Proofs.Course.Session
import Diglot.Proofs.Law.Basic
import Diglot.Proofs.Paths.Written
import Diglot.Proofs.Split.Expression
import Diglot.Proofs.Value.Expression

/-! # Instance members behind the name of a class

Through the name of a class only what is static can be used. `ClassTable.NamesInstance` says that the
segment behind the name of a class names something else, and `InstanceThroughClass` that a chain starts this
way. Wherever such a chain is read or called, or leads to a member that is assigned, null takes the place of
the segment and a warning is recorded; no code uses what the segment names, and what stands behind it is not
lowered (`Ready.instance_unused`).

The last segment of an assigned chain is not looked at in this way (`class_name_stores_instance`).
-/

set_option autoImplicit false

namespace Diglot

/-- The member is there and is not static. -/
def ClassTable.isInstance (t : ClassTable) (m : MemberRef) : Bool :=
  (((t.get? m.owner).bind fun c => c.symbols.get? m.index).map fun x => !x.isStatic).getD false

/-- Behind the name of the class, the segment names what only objects of the class have, and what may be used
in the given class: a member that is not static, the accessor of one, or a procedure that is neither static
nor a constructor. -/
inductive ClassTable.NamesInstance (t : ClassTable) (context : Option Nat) (cls : Nat) : Node → Prop where
  | member {ident : Identifier} {m : MemberRef} : t.lookupMember cls ident.name context = .found m →
      t.isInstance m = true → t.NamesInstance context cls (.identifier ident)
  | accessor {call : Call} {property : String} {m : MemberRef} : call.args = [] →
      propertyName? call.name = some property → t.lookupMember cls property context = .found m →
      t.isInstance m = true → t.NamesInstance context cls (.call call)
  | method {call : Call} {m : MemberRef} {p : Procedure} :
      (∀ property, call.args = [] → propertyName? call.name = some property →
        t.lookupMember cls property context = .missing) →
      t.lookupProcedure cls call.name call.args.length context = .found m →
      t.procedure? ⟨some m.owner, m.index⟩ = some p → p.isStatic = false → p.isConstructor = false →
      t.NamesInstance context cls (.call call)

namespace Lowering

/-- A member that is not static is found under its own entry. -/
theorem Sight.inClass_instance {v : Sight} {cls : Nat} {name : String} {m : MemberRef}
    (h : v.session.classes.lookupMember cls name v.frame.scope.classScope = .found m)
    (hm : v.session.classes.isInstance m = true) :
    ∃ x, v.inClass cls name = .found ⟨.cls m.owner, m.index⟩ ∧
      v.session.symbol? ⟨.cls m.owner, m.index⟩ = some x ∧ x.isStatic = false := by
  unfold ClassTable.isInstance at hm
  cases hx : (v.session.classes.get? m.owner).bind fun c => c.symbols.get? m.index with
  | none =>
    rw [hx] at hm
    cases hm
  | some x =>
    rw [hx] at hm
    have hinstance : x.isStatic = false := by simpa using hm
    refine ⟨x, ?_, hx, hinstance⟩
    have hentry : v.isStaticMember m = false := by
      unfold isStaticMember
      rw [hx]
      exact hinstance
    unfold inClass
    rw [h]
    dsimp only
    rw [hentry]
    rfl

theorem Sight.inClass_missing {v : Sight} {cls : Nat} {name : String}
    (h : v.session.classes.lookupMember cls name v.frame.scope.classScope = .missing) :
    v.inClass cls name = .unbound := by
  unfold inClass
  rw [h]

section
variable {part : LowerPart} {f : Frame} {s : State} {c : Cursor} {cls : Nat}

/-- Null takes the place of a segment, which ends the chain. -/
def NullSegment (f : Frame) (s : State) (c : Cursor) (m : Lower Cursor) : Prop :=
  ∃ d message span t, m f s = .ok d t ∧ d.isStopped = true ∧ d.depth = c.depth + 1 ∧
    d.afterCall = c.afterCall ∧
    Passes f s t [.ternary .push .null (.cls f.scope.classScope) (.arrayDim 0)]
      #[s.session.diagnostic .callingNonStaticOnClass message span]

theorem nullSegment_stop (h : s.session.CanEmit f.block) (message : String) (span : Span) :
    NullSegment f s c (do
      report .callingNonStaticOnClass message span
      stopChain c span) := by
  let d := s.session.diagnostic .callingNonStaticOnClass message span
  have hreport := Passes.report f s d
  obtain ⟨_, t, hpush, hp⟩ := passes_emitPush (hreport.canEmit h) .null 0 span
  refine ⟨{ c with type := .null, depth := c.depth + 1, isStopped := true }, message, span, t, ?_, rfl, rfl,
    rfl, hreport.trans hp⟩
  simp only [run_bind, run_report, stopChain, emitPushNull]
  rw [hpush]
  rfl

/-- The cursor stands behind the name of the class. -/
structure Cursor.AtClass (c : Cursor) (cls : Nat) : Prop where
  anchor : c.anchor = some cls
  depth : c.depth ≠ 0

theorem Cursor.AtClass.receiver? (h : c.AtClass cls) : c.receiver? = some cls := by
  unfold Cursor.receiver?
  rw [h.anchor]

theorem Cursor.AtClass.onArray (h : c.AtClass cls) : c.onArray = false := by
  unfold Cursor.onArray
  rw [h.anchor]
  rfl

theorem Cursor.AtClass.segmentTarget (h : c.AtClass cls) (v : Sight) (name : String) :
    v.segmentTarget name c =
      match v.inClass cls name with
      | .found r => .symbol r
      | .inaccessible _ => .inaccessible
      | .unbound => .unbound := by
  unfold Sight.segmentTarget Sight.memberTarget
  rw [if_neg h.depth, h.onArray, h.receiver?]
  rfl

/-- A member that is not static is not read through the name of its class. -/
theorem nullSegment_member {ident : Identifier} {r : SymbolRef} {x : Symbol} (hc : c.AtClass cls)
    (hlooks : f.LooksOut s.session) (hr : (sightFrom f s.session).inClass cls ident.name = .found r)
    (hx : s.session.symbol? r = some x) (hstatic : x.isStatic = false) :
    NullSegment f s c (lowerIdentifier part ident c) := by
  have hthis : (ident.isThis && c.depth == 0) = false := by simp [hc.depth]
  have htarget := hc.segmentTarget (sightFrom f s.session) ident.name
  rw [hr] at htarget
  obtain ⟨d, message, span, t, hrun, hd⟩ := nullSegment_stop (c := c) hlooks.canEmit
    ("'" ++ ident.name ++ "' is not a static member of class '" ++
      (sightFrom f s.session).className cls ++ "'.") ident.span
  refine ⟨d, message, span, t, ?_, hd⟩
  unfold lowerIdentifier lowerSymbol
  simp only [hthis, Bool.false_eq_true, if_false, run_bind, hlooks.run_sight, htarget, run_getSymbol, hx,
    hstatic, hc.anchor]
  exact hrun

theorem nullSegment_method {call : Call} {m : MemberRef} {p : Procedure} (hc : c.AtClass cls)
    (hlooks : f.LooksOut s.session)
    (hm : s.session.classes.lookupProcedure cls call.name call.args.length f.scope.classScope = .found m)
    (hp : s.session.classes.procedure? ⟨some m.owner, m.index⟩ = some p) (hstatic : p.isStatic = false)
    (hctor : p.isConstructor = false) : NullSegment f s c (lowerResolvedCall part call c) := by
  have htarget : (sightFrom f s.session).callTarget call.name call.args.length c = .nonStatic := by
    unfold Sight.callTarget Sight.memberCall
    rw [if_neg hc.depth, hc.onArray, hc.receiver?]
    simp [sightFrom, hm, hp, hstatic, hctor, hc.anchor]
  obtain ⟨d, message, span, t, hrun, hd⟩ := nullSegment_stop (c := c) hlooks.canEmit
    (nonStaticMessage (sightFrom f s.session) call.name c.anchor) call.span
  refine ⟨d, message, span, t, ?_, hd⟩
  unfold lowerResolvedCall
  simp only [run_bind, hlooks.run_sight, htarget]
  exact hrun

/-- The arguments of a call are lowered in a frame that may carry guides. -/
theorem run_guidedCall {α : Type} (f : Frame) (s : State) :
    ∃ g : Frame, g.block = f.block ∧ g.scope = f.scope ∧ ∀ m : Lower α, guidedCall m f s = m g s := by
  cases hd : f.dialect with
  | associative =>
    refine ⟨{ f with isGuided := s.session.options.replicationGuides }, rfl, rfl, fun m => ?_⟩
    simp only [guidedCall, run_bind, run_getSession, run_withReader, hd]
  | imperative =>
    refine ⟨{ f with isGuided := false }, rfl, rfl, fun m => ?_⟩
    simp only [guidedCall, run_bind, run_getSession, run_withReader, hd]

/-- Null takes the place of a call if it does so in a frame that may carry guides. -/
theorem NullSegment.guided {k : Sight → Lower Cursor} (hlooks : f.LooksOut s.session)
    (h : ∀ g : Frame, g.block = f.block → g.scope = f.scope →
      NullSegment g s c (k (sightFrom g s.session))) :
    NullSegment f s c (guidedCall do k (← sight)) := by
  obtain ⟨g, hblock, hscope, hg⟩ := run_guidedCall (α := Cursor) f s
  obtain ⟨d, message, span, t, hrun, hstopped, hdepth, hafter, hp⟩ := h g hblock hscope
  have hlooks' : g.LooksOut s.session := ⟨hblock ▸ hlooks.blocks, hscope ▸ hlooks.body⟩
  rw [hscope] at hp
  refine ⟨d, message, span, t, ?_, hstopped, hdepth, hafter, hp.frame hblock⟩
  rw [hg, run_bind, hlooks'.run_sight]
  exact hrun

/-- Whatever the segment behind the name of a class names that only objects have, it is not used. -/
theorem nullSegment_instance (part : LowerPart) {n : Node} (isRoot : Bool) (hc : c.AtClass cls)
    (hlooks : f.LooksOut s.session)
    (h : s.session.classes.NamesInstance f.scope.classScope cls n) :
    NullSegment f s c (lowerSegment part isRoot n c) := by
  have hpos : decide (0 < c.depth) = true := decide_eq_true (Nat.pos_of_ne_zero hc.depth)
  cases h with
  | member hm hinstance =>
    obtain ⟨x, hr, hx, hstatic⟩ :=
      Sight.inClass_instance (v := sightFrom f s.session) hm hinstance
    exact nullSegment_member hc hlooks hr hx hstatic
  | @accessor call property m hargs hproperty hm hinstance =>
    refine .guided hlooks fun g hblock hscope => ?_
    have hlooks' : g.LooksOut s.session := ⟨hblock ▸ hlooks.blocks, hscope ▸ hlooks.body⟩
    obtain ⟨x, hr, hx, hstatic⟩ :=
      Sight.inClass_instance (v := sightFrom g s.session) (hscope ▸ hm) hinstance
    have hread : accessedProperty? (sightFrom g s.session) call c = some property := by
      unfold accessedProperty?
      rw [hproperty]
      dsimp only
      rw [hargs, hpos, hc.segmentTarget, hr]
      rfl
    rw [hread]
    have hnull : NullSegment g s c (lowerIdentifier part ⟨property, call.dims, [], call.span⟩ c) :=
      nullSegment_member hc hlooks' hr hx hstatic
    exact hnull
  | @method call m p hnone hm hp hstatic hctor =>
    refine .guided hlooks fun g hblock hscope => ?_
    have hlooks' : g.LooksOut s.session := ⟨hblock ▸ hlooks.blocks, hscope ▸ hlooks.body⟩
    have hread : accessedProperty? (sightFrom g s.session) call c = none := by
      unfold accessedProperty?
      cases hproperty : propertyName? call.name with
      | none => rfl
      | some property =>
        dsimp only
        split
        · next hargs =>
          rw [Bool.and_eq_true] at hargs
          have hmissing := hnone property (List.isEmpty_iff.mp hargs.1) hproperty
          rw [hc.segmentTarget, Sight.inClass_missing (v := sightFrom g s.session) (hscope ▸ hmissing)]
        · rfl
    rw [hread]
    exact nullSegment_method hc hlooks' (hscope ▸ hm) hp hstatic hctor

/-! ## Chains -/

/-- What is pushed for the name of a class at the root of a chain, and for the segment behind it. -/
def nullCode (f : Frame) (cls : Nat) : List Instruction :=
  [.ternary .pushm (.cls (some cls)) (.cls (some cls)) (.block f.block),
    .ternary .push .null (.cls f.scope.classScope) (.arrayDim 0)]

/-- The segments of a chain whose root stands for a class, and whose next segment names what only objects
of the class have. -/
structure InstanceThroughClass (f : Frame) (s : Session) (cls : Nat) (segments : List Node) : Prop where
  exists_root : ∃ root second rest, segments.map Node.unwrap = .identifier root :: second :: rest ∧
    root.isThis = false ∧ (sightFrom f s).rootTarget root.name = .cls cls ∧
    s.classes.NamesInstance f.scope.classScope cls second

/-- Behind such a segment the chain is stopped: nothing else of it is lowered. -/
theorem InstanceThroughClass.lowerSegments (part : LowerPart) {segments : List Node} (isRoot : Bool)
    (h : InstanceThroughClass f s.session cls segments) (hlooks : f.LooksOut s.session) :
    ∃ d message span t,
      lowerSegments part isRoot (segments.map Node.unwrap) (.start false) f s = .ok d t ∧
        d.isStopped = true ∧ d.depth = 2 ∧ d.afterCall = false ∧
        Passes f s t (nullCode f cls)
          #[s.session.diagnostic .callingNonStaticOnClass message span] := by
  obtain ⟨root, second, rest, hsegments, hthis, hroot, hsecond⟩ := h.exists_root
  obtain ⟨_, u, hpush, hp⟩ :=
    passes_emitPushm hlooks.canEmit (.cls (some cls)) (some cls) root.span
  let c : Cursor := { Cursor.track (.start false) (.ofName root.name none (some cls)) with
    type := .scalar cls, depth := 1, anchor := some cls }
  have hname : lowerIdentifier part root (.start false) f s = .ok c u := by
    have htarget : (sightFrom f s.session).segmentTarget root.name (.start false) = .cls cls := hroot
    have hsingle : (Cursor.start false).isSingle = false := rfl
    unfold lowerIdentifier lowerClassName
    simp only [hthis, Bool.false_and, Bool.false_eq_true, if_false, run_bind, hlooks.run_sight, htarget,
      hsingle, hpush, run_pure]
    rfl
  have hc : c.AtClass cls := ⟨rfl, Nat.one_ne_zero⟩
  obtain ⟨d, message, span, t, hrun, hstopped, hdepth, hafter, hp'⟩ :=
    nullSegment_instance part false hc (hlooks.passes hp)
      (hp.names.classes ▸ hsecond)
  have hdiagnostic : u.session.diagnostic .callingNonStaticOnClass message span =
      s.session.diagnostic .callingNonStaticOnClass message span := by
    unfold Session.diagnostic
    rw [hp.file]
  rw [hdiagnostic] at hp'
  refine ⟨d, message, span, t, ?_, hstopped, hdepth, hafter, hp.trans hp'⟩
  have hrest (b : Bool) : Lowering.lowerSegments part b rest d f t = .ok d t := by
    cases rest with
    | nil => rfl
    | cons n more =>
      unfold Lowering.lowerSegments
      rw [hstopped]
      rfl
  have hfresh : (Cursor.start false).isStopped = false := rfl
  have hgoing : c.isStopped = false := rfl
  have hfirst : lowerSegment part isRoot (.identifier root) (.start false) f s = .ok c u := hname
  rw [hsegments]
  simp only [Lowering.lowerSegments, hfresh, run_bind, run_ite, hfirst, Bool.false_eq_true, if_false, hgoing,
    hrun]
  exact hrest false

theorem InstanceThroughClass.congr {t : Session} {segments : List Node} (hst : s.session.SameNames t)
    (h : InstanceThroughClass f s.session cls segments) : InstanceThroughClass f t cls segments := by
  obtain ⟨root, second, rest, hsegments, hthis, hroot, hsecond⟩ := h.exists_root
  refine ⟨root, second, rest, hsegments, hthis, ?_, hst.classes ▸ hsecond⟩
  have hresolve := Sight.resolve_sightFrom hst f root.name
  have hclasses : (sightFrom f t).session.classes = (sightFrom f s.session).session.classes := hst.classes
  unfold Sight.rootTarget at hroot ⊢
  rw [hresolve, hclasses]
  exact hroot

/-- Guides in front of a chain, if there are any to be pushed, are numbers. -/
theorem passes_chainGuides (hcan : s.session.CanEmit f.block) (guides : List Guide) :
    ∃ t code,
      (∀ {α : Type} (m : Lower α),
        (guidesWanted >>= fun wanted =>
          if wanted = true then emitGuides guides >>= fun _ => m else m) f s = m f t) ∧
      Passes f s t code #[] ∧
      ∀ i ∈ code, i.IsNeutral ∧ (i.opcode = .push ∨ i.opcode = .pushindex) := by
  have hneutral (i : Instruction) (hi : i ∈ guideCode f.scope.classScope guides) :
      i.IsNeutral ∧ (i.opcode = .push ∨ i.opcode = .pushindex) := by
    rcases List.mem_append.mp hi with hi | hi
    · obtain ⟨g, _, rfl⟩ := List.mem_map.mp hi
      exact ⟨Instruction.isNeutral_ternary _ rfl rfl rfl, .inl rfl⟩
    · rw [List.mem_singleton.mp hi]
      exact ⟨Instruction.isNeutral_unary _ rfl, .inr rfl⟩
  cases hwanted : f.isGuided && s.session.options.replicationGuides with
  | true =>
    obtain ⟨t, hrun, hp⟩ := passes_emitGuides hcan guides
    refine ⟨t, _, fun m => ?_, hp, hneutral⟩
    simp only [guidesWanted, run_bind, run_read, run_getSession, run_pure, hwanted, if_true, hrun]
  | false =>
    refine ⟨s, [], fun m => ?_, .refl f s, fun i hi => absurd hi List.not_mem_nil⟩
    simp only [guidesWanted, run_bind, run_read, run_getSession, run_pure, hwanted, Bool.false_eq_true,
      if_false]

theorem passes_recordRead (hopen : s.node.isSealed = false) (path : Path) (viaCall : Bool) :
    ∃ t, recordRead path viaCall f s = .ok () t ∧ Passes f s t [] #[] := by
  refine ⟨_, recordRead_eq_ok.mpr ⟨fun _ => hopen, rfl⟩, ?_⟩
  split
  · exact .quiet rfl rfl
  · exact .refl f s

/-- The name of the class and null were pushed, a warning was recorded, and no instruction uses a variable
or calls a procedure. -/
def NullInstead (f : Frame) (cls : Nat) (s t : State) : Prop :=
  ∃ guides last message span,
    Passes f s t (guides ++ nullCode f cls ++ [last])
      #[s.session.diagnostic .callingNonStaticOnClass message span] ∧
    ∀ i ∈ guides ++ nullCode f cls ++ [last], i.IsNeutral ∧ i.opcode ≠ .call ∧ i.opcode ≠ .callr

theorem neutral_nullCode {guides : List Instruction} {last : Instruction}
    (hguides : ∀ i ∈ guides, i.IsNeutral ∧ (i.opcode = .push ∨ i.opcode = .pushindex))
    (hlast : last.IsNeutral ∧ last.opcode ≠ .call ∧ last.opcode ≠ .callr) :
    ∀ i ∈ guides ++ nullCode f cls ++ [last], i.IsNeutral ∧ i.opcode ≠ .call ∧ i.opcode ≠ .callr := by
  have hpushes {op : OpCode} (hop : op = .push ∨ op = .pushindex ∨ op = .pushm) :
      op ≠ .call ∧ op ≠ .callr := by
    rcases hop with rfl | rfl | rfl <;> decide
  intro i hi
  rcases List.mem_append.mp hi with hi | hi
  · rcases List.mem_append.mp hi with hi | hi
    · obtain ⟨hneutral, hop⟩ := hguides i hi
      exact ⟨hneutral, hpushes (hop.imp_right .inl)⟩
    · simp only [nullCode, List.mem_cons, List.not_mem_nil, or_false] at hi
      rcases hi with rfl | rfl
      · exact ⟨Instruction.isNeutral_ternary _ rfl rfl rfl, hpushes (.inr (.inr rfl))⟩
      · exact ⟨Instruction.isNeutral_ternary _ rfl rfl rfl, hpushes (.inl rfl)⟩
  · rw [List.mem_singleton.mp hi]
    exact hlast

/-- The value of such a chain is null. -/
theorem InstanceThroughClass.lowerChain {segments : List Node} {span : Span}
    (h : InstanceThroughClass f s.session cls segments) (hlooks : f.LooksOut s.session)
    (hopen : s.node.isSealed = false) :
    ∃ t, lowerChain part segments span f s = .ok .null t ∧ NullInstead f cls s t := by
  obtain ⟨root, second, rest, hsegments, _⟩ := h.exists_root
  obtain ⟨u, guides, hguides, hp, hneutral⟩ :=
    passes_chainGuides hlooks.canEmit (((segments.map Node.unwrap).getLast?.map Node.guides).getD [])
  obtain ⟨d, message, at_, v, hrun, hstopped, hdepth, hafter, hp'⟩ :=
    (h.congr hp.names).lowerSegments part true (hlooks.passes hp)
  have hdiagnostic : u.session.diagnostic .callingNonStaticOnClass message at_ =
      s.session.diagnostic .callingNonStaticOnClass message at_ := by
    unfold Session.diagnostic
    rw [hp.file]
  rw [hdiagnostic] at hp'
  have hmany := hp.trans hp'
  obtain ⟨_, x, hlist, hp''⟩ := passes_emitPushlist (hmany.canEmit hlooks.canEmit) 2 span
  have hall := hmany.trans hp''
  obtain ⟨t, hread, hlast⟩ := passes_recordRead (f := f) (hall.isSealed.trans hopen) d.path d.hasCall
  let last : Instruction :=
    .ternary .pushlist (.int (Operand.clamp 2)) (.cls f.scope.classScope) (.block f.block)
  have hend : Passes f s t (guides ++ nullCode f cls ++ [last])
      #[s.session.diagnostic .callingNonStaticOnClass message at_] := by
    simpa only [List.append_nil, Array.append_empty, Array.empty_append] using hall.trans hlast
  have hlength : (segments.map Node.unwrap).length = rest.length + 2 := by
    rw [hsegments]
    rfl
  have hsingle : ((segments.map Node.unwrap).length == 1) = false := by
    rw [hlength]
    simp
  have hnonempty : segments.isEmpty = false := by
    cases segments with
    | nil => cases hsegments
    | cons _ _ => rfl
  refine ⟨t, ?_, guides, last, message, at_, hend, neutral_nullCode hneutral
    ⟨Instruction.isNeutral_ternary _ rfl rfl rfl, nofun, nofun⟩⟩
  unfold Lowering.lowerChain
  simp only [hnonempty, Bool.false_eq_true, if_false, hsingle]
  refine (hguides _).trans ?_
  simp only [run_bind, run_ite, hrun, hdepth, hafter, Nat.one_lt_two, if_true, hlist, run_pure, hread,
    hstopped]

/-- Such a chain has two segments at least, so it is no single node. -/
theorem InstanceThroughClass.lowerNode (part : LowerPart) {segments : List Node} {n : Node}
    (h : InstanceThroughClass f s.session cls segments) (hn : n.segments = .ok segments) :
    ∃ span, lowerNode part n = Lowering.lowerChain part segments span := by
  cases n with
  | member left right op lastFactor span =>
    refine ⟨span, ?_⟩
    unfold Lowering.lowerNode
    rw [chainSegments_ok hn]
    rfl
  | _ =>
    obtain ⟨root, second, rest, hsegments, _⟩ := h.exists_root
    have hlength := congrArg List.length hsegments
    rw [← Except.ok.inj hn] at hlength
    simp at hlength

theorem InstanceThroughClass.expression {segments : List Node} {n : Node}
    (h : InstanceThroughClass f s.session cls segments) (hn : n.segments = .ok segments)
    (hlooks : f.LooksOut s.session) (hopen : s.node.isSealed = false) :
    ∃ t, expression n f s = .ok .null t ∧ NullInstead f cls s t := by
  obtain ⟨span, hchain⟩ := h.lowerNode Lowering.expression hn
  rw [expression_eq, hchain]
  exact h.lowerChain hlooks hopen

/-- The value of an assignment to a member behind such a chain is stored nowhere. -/
theorem InstanceThroughClass.storeMember {segments : List Node} {property : Identifier} {span : Span}
    (h : InstanceThroughClass f s.session cls segments) (hlooks : f.LooksOut s.session) :
    ∃ path t, storeMember property segments span f s = .ok path t ∧ NullInstead f cls s t := by
  have h' : InstanceThroughClass { f with isTracked := false } s.session cls segments :=
    ⟨h.exists_root⟩
  obtain ⟨d, message, at_, u, hrun, hstopped, hdepth, hafter, hp⟩ :=
    h'.lowerSegments Lowering.expression false ⟨hlooks.blocks, hlooks.body⟩
  have hp' : Passes f s u (nullCode f cls) #[s.session.diagnostic .callingNonStaticOnClass message at_] :=
    hp.frame rfl
  have hlooks' := hlooks.passes hp'
  obtain ⟨_, t, x, hpop, hlast⟩ := passes_emitPoplist hlooks'.canEmit 2 f.scope.classScope span
  refine ⟨d.path, t, ?_, [], _, message, at_, hp'.trans hlast, ?_⟩
  · unfold Lowering.storeMember untracked
    simp only [run_bind, run_withReader, hrun, hlooks'.run_sight, hstopped, hdepth, if_true]
    rw [show (sightFrom f u.session).frame.scope.classScope = f.scope.classScope from rfl, hpop]
    rfl
  · exact neutral_nullCode (fun i hi => absurd hi List.not_mem_nil)
      ⟨Instruction.isNeutral_ternary _ rfl rfl rfl, nofun, nofun⟩

theorem InstanceThroughClass.assignTo {segments : List Node} {target : Node} {property : Identifier}
    {type : Ty} (h : InstanceThroughClass f s.session cls segments)
    (htarget : target.segments = .ok (segments ++ [.identifier property]))
    (hlooks : f.LooksOut s.session) :
    ∃ path t, assignTo target type f s = .ok path t ∧ NullInstead f cls s t := by
  have hstore : Lowering.assignTo target type =
      Lowering.storeMember property segments target.span := by
    cases target with
    | member left right op lastFactor span =>
      unfold Lowering.assignTo storeChain
      dsimp only
      rw [chainSegments_ok htarget, pure_bind, List.getLast?_concat]
      dsimp only
      rw [List.dropLast_concat]
    | _ =>
      obtain ⟨root, second, rest, hsegments, _⟩ := h.exists_root
      have hlength := congrArg List.length hsegments
      have hone := congrArg List.length (Except.ok.inj htarget)
      simp only [List.length_map, List.length_cons, List.length_append, List.length_nil] at hlength hone
      omega
  rw [hstore]
  exact h.storeMember hlooks

/-- Where such a chain is split, the name of the class stays with the segment behind it, and both are lowered
as a chain of that kind. -/
theorem InstanceThroughClass.head {s : Session} {root : Identifier} {second : Node} {rest : List Node}
    (h : InstanceThroughClass f s cls (.identifier root :: second :: rest)) (hanchor : f.anchor = none) :
    splitAnchor? (sightFrom f s) (.identifier root :: second :: rest) = some cls ∧
      (∀ span, (Node.member (.identifier root) second .dot false span).segments =
        .ok [.identifier root, second]) ∧
      ∀ (g : Frame) (t : Session), g.scope = f.scope → g.anchor = some cls → t.classes = s.classes →
        InstanceThroughClass g t cls [.identifier root, second] := by
  obtain ⟨root', second', rest', hsegments, hthis, hroot, hsecond⟩ := h.exists_root
  obtain ⟨rfl, rfl, rfl⟩ : root = root' ∧ second.unwrap = second' ∧ rest.map Node.unwrap = rest' := by
    simpa [Node.unwrap] using hsegments
  have hnone : (sightFrom f s).frame.anchor = none := hanchor
  obtain ⟨hunbound, hindex⟩ : (sightFrom f s).resolve root.name = .unbound ∧
      s.classes.indexOf? root.name = some cls := by
    unfold Sight.rootTarget at hroot
    rw [hnone] at hroot
    simp only [Option.isSome_none, Bool.false_and, Bool.false_eq_true, if_false] at hroot
    split at hroot
    · cases hroot
    · cases hroot
    · next hunbound =>
      refine ⟨hunbound, ?_⟩
      split at hroot
      · next hindex =>
        cases hroot
        exact hindex
      · cases hroot
  refine ⟨?_, fun span => ?_, fun g t hscope hg hclasses => ⟨root, second.unwrap, [], rfl, hthis, ?_, ?_⟩⟩
  · unfold splitAnchor?
    dsimp only
    rw [hunbound]
    exact hindex
  · have hsingle : second.segments = .ok [second] := by
      cases second with
      | member => cases hsecond
      | _ => rfl
    unfold Node.segments
    rw [if_pos rfl, hsingle]
    rfl
  · have hindex' : (sightFrom g t).session.classes.indexOf? root.name = some cls := by
      rw [← hindex, ← hclasses]
      rfl
    have hg' : (sightFrom g t).frame.anchor = some cls := hg
    unfold Sight.rootTarget
    rw [hindex', hg']
    simp
  · rw [hclasses, hscope]
    exact hsecond

end

/-- What only the objects of a class have is not used through the name of the class, whatever the dialect:
null takes its place, the rest of the chain is not lowered, and a warning is recorded, with the chain read or
called, and with a member behind it assigned. Where the chain is split, this is the fate of the name of the
class and the segment behind it, which stay together. -/
theorem Ready.instance_unused {w : Bool} {f : Frame} {s : State} (hr : Ready w f s) {cls : Nat}
    {segments : List Node} (h : InstanceThroughClass f s.session cls segments) :
    (∀ n, n.segments = .ok segments →
      ∃ t, expression n f s = .ok .null t ∧ NullInstead f cls s t) ∧
    (∀ target property type, target.segments = .ok (segments ++ [.identifier property]) →
      ∃ path t, assignTo target type f s = .ok path t ∧ NullInstead f cls s t) ∧
    ∀ root second rest, segments = .identifier root :: second :: rest → f.anchor = none →
      (∀ target span, splitChain target segments span f s =
        (do
          pushPointers [.identifier root, second]
          lowerFactors target span (.member (.identifier root) second .dot false span) (some cls) rest) f s) ∧
      ∀ (v : Bool) (g : Frame) (t : State), Ready v g t → g.scope = f.scope → g.anchor = some cls →
        t.session.classes = s.session.classes → ∀ span,
          ∃ u, expression (.member (.identifier root) second .dot false span) g t = .ok .null u ∧
            NullInstead g cls t u := by
  refine ⟨fun n hn => ?_, fun target property type htarget => ?_, ?_⟩
  · exact h.expression hn hr.looksOut (hr.neat s.node (.inl rfl)).1
  · exact h.assignTo htarget hr.looksOut
  · rintro root second rest rfl hanchor
    obtain ⟨hsplit, hsegments, hhead⟩ := h.head hanchor
    refine ⟨fun target span => ?_, fun v g t hg hscope hg' hclasses span => ?_⟩
    · unfold splitChain
      simp only [run_bind, hr.looksOut.run_sight, hsplit]
    · exact (hhead g t.session hscope hg' hclasses).expression (hsegments span) hg.looksOut
        (hg.neat t.node (.inl rfl)).1

/-- The member that a class inherits is not used through the name of the class. -/
theorem inherited_instance_unused :
    let member : Variable :=
      { name := "x", type := .var, value := none, isStatic := false, access := .isPublic, region := .stack
        span := .nil }
    let base : Node := .classDecl
      { name := "C", base := none, members := [member], methods := [], attributes := [], span := .nil }
    let derived : Node := .classDecl
      { name := "D", base := some "C", members := [], methods := [], attributes := [], span := .nil }
    let chain : List Node := [.identifier (.plain "D" .nil), .identifier (.plain "x" .nil)]
    let read : Node := .member (.identifier (.plain "D" .nil)) (.identifier (.plain "x" .nil)) .dot false .nil
    let target : Node := .member read (.identifier (.plain "y" .nil)) .dot false .nil
    let start := (Session.compile (.new {}) [base, derived] .associative).2.unitStart .associative
    let f := unitFrame start.1 .global .associative []
    let s : State := { session := start.2 }
    Ready false f s ∧ InstanceThroughClass f s.session 13 chain ∧
      (∃ t, expression read f s = .ok .null t ∧ NullInstead f 13 s t) ∧
      (∃ path t, assignTo target .var f s = .ok path t ∧ NullInstead f 13 s t) ∧
      ∃ u, expression read { f with anchor := some 13 } s = .ok .null u ∧
        NullInstead { f with anchor := some 13 } 13 s u := by
  intro member base derived chain read target start f s
  have hused : (Session.compile (.new {}) [base, derived] .associative).2.Used :=
    .compile _ _ (.new _)
  have hready : Ready false f s := (hused.fit.unitStart [] .associative).1
  have hroot : (sightFrom f s.session).rootTarget "D" = .cls 13 := by decide +kernel
  have hmember : s.session.classes.lookupMember 13 "x" f.scope.classScope = .found ⟨12, 0⟩ := by
    decide +kernel
  have hinstance : s.session.classes.isInstance ⟨12, 0⟩ = true := by decide +kernel
  have hanchor : f.anchor = none := rfl
  clear_value s f
  have h : InstanceThroughClass f s.session 13 chain :=
    ⟨_, _, [], rfl, by decide, hroot, .member hmember hinstance⟩
  obtain ⟨hread, hassign, hsplit⟩ := Ready.instance_unused hready h
  have hanchored : Ready false { f with anchor := some 13 } s := hready.site rfl
  obtain ⟨_, hhead⟩ := hsplit _ _ _ rfl hanchor
  exact ⟨hready, h, hread read rfl, hassign target (.plain "y" .nil) .var rfl,
    hhead false _ s hanchored rfl rfl rfl .nil⟩

/-- The last segment of an assigned chain is used whatever it names: the member of all objects of the class,
or its setter, without a warning. -/
theorem class_name_stores_instance :
    let member : Variable :=
      { name := "x", type := .var, value := none, isStatic := false, access := .isPublic, region := .stack
        span := .nil }
    let cls : Node := .classDecl
      { name := "C", base := none, members := [member], methods := [], attributes := [], span := .nil }
    let target : Node :=
      .member (.identifier (.plain "C" .nil)) (.identifier (.plain "x" .nil)) .dot false .nil
    let s := (Session.compile (.new {}) [cls] .associative).2
    let after (dialect : Dialect) := (s.compile [.assign target (.literal .int "1" .nil) .nil] dialect).2
    let uses (dialect : Dialect) (op : OpCode) (o : Operand) : Bool :=
      ((after dialect).stream 4).any fun i => i.opcode == op && i.operands.contains o
    s.classes.isInstance ⟨12, 0⟩ = true ∧
      (after .imperative).diagnostics = #[] ∧ uses .imperative .pushm (.memVar 0) = true ∧
      (after .associative).diagnostics = #[] ∧ uses .associative .call (.function (some 1)) = true := by
  decide +kernel

end Lowering

end Diglot
