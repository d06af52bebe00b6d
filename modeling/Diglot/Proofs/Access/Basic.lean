import Diglot.Proofs.Law.Session
import Mathlib.Logic.Relation
import Diglot.Proofs.Flow.Stream

/-! # Who may use what a class declares

* `Session.Permits s ctx owner access`: code in the scope `ctx` may use what class `owner` declares with
  the given access. It speaks of base classes only, not of the walk along them that a lookup takes.
* `permits_of_isAccessible`: what a lookup takes to be accessible is permitted.
* `Working f s`: in the course of a call on a used session, lowering is in frame `f` with session `s`.
* `Emits s ctx i`: a call on a used session has left session `s`, and the code in it that runs in the scope
  `ctx` has the instruction. A law holds of all of these (`Emits.lawful`).
-/

set_option autoImplicit false

namespace Diglot

open Lowering

namespace Session

/-- The first class is the second or derives from it. -/
def Derives (s : Session) : Nat → Nat → Prop :=
  Relation.ReflTransGen fun cls b => s.base? cls = some b

/-- Code in the scope `ctx` may use what class `owner` declares with the given access. -/
inductive Permits (s : Session) (ctx : Option Nat) (owner : Nat) : Access → Prop where
  | isPublic : Permits s ctx owner .isPublic
  | isPrivate : ctx = some owner → Permits s ctx owner .isPrivate
  | isProtected (cls : Nat) : ctx = some cls → s.Derives cls owner → Permits s ctx owner .isProtected

variable {s t : Session} {ctx : Option Nat} {owner : Nat} {access : Access}

theorem derives_of_mem_lineage {cls : Nat} (h : owner ∈ s.classes.lineage cls) :
    s.Derives cls owner := by
  have hfuel (fuel cls : Nat) (h : owner ∈ s.classes.lineageFrom fuel cls) : s.Derives cls owner := by
    induction fuel generalizing cls with
    | zero => cases h
    | succ fuel ih =>
      unfold ClassTable.lineageFrom at h
      split at h
      · next b hb =>
        rcases List.mem_cons.mp h with rfl | h
        · exact .refl
        · exact .head hb (ih b h)
      · rw [List.mem_singleton.mp h]
        exact .refl
  exact hfuel _ cls h

/-- What a lookup takes to be accessible is permitted. -/
theorem permits_of_isAccessible (h : s.classes.isAccessible owner access ctx = true) :
    s.Permits ctx owner access := by
  cases access with
  | isPublic => exact .isPublic
  | isPrivate => exact .isPrivate (eq_of_beq h)
  | isProtected =>
    cases ctx with
    | none => cases h
    | some cls => exact .isProtected cls rfl (derives_of_mem_lineage (List.contains_iff_mem.mp h))

theorem Permits.widens (h : s.Permits ctx owner access) (hst : s.Widens t) :
    t.Permits ctx owner access := by
  cases h with
  | isPublic => exact .isPublic
  | isPrivate hctx => exact .isPrivate hctx
  | isProtected cls hctx hd => exact .isProtected cls hctx (Relation.ReflTransGen.mono hst.base _ _ hd)

end Session

/-! ## Instructions that address variables -/

namespace Instruction

variable {i j : Instruction} {x : Symbol}

theorem Accesses.opcode (h : i.Accesses x) :
    i.opcode = .push ∨ i.opcode = .pushm ∨ i.opcode = .pop ∨ i.opcode = .popw := by
  cases h with
  | alone _ _ hi =>
    obtain ⟨debug, rfl⟩ := hi
    exact .inl rfl
  | segment _ hi =>
    obtain ⟨debug, rfl⟩ := hi
    exact .inr (.inl rfl)
  | store _ hi =>
    obtain ⟨debug, rfl⟩ := hi
    exact .inr (.inr (.inl rfl))
  | watched hi =>
    obtain ⟨debug, rfl⟩ := hi
    exact .inr (.inr (.inr rfl))

/-- The instruction addresses no variable but the one. -/
theorem Accesses.operand (h : i.Accesses x) {o : Operand} (ho : o ∈ i.operands)
    (hvariable : o.isVariable = true) : o = .ofSymbol x := by
  have hfirst {op : OpCode} {cls : Option Nat} {last : Option Operand} {debug : Option DebugRecord}
      (hlast : ∀ l ∈ last, l.isVariable = false)
      (ho : o ∈ ({ opcode := op, op1 := some (.ofSymbol x), op2 := some (.cls cls), op3 := last, debug } :
        Instruction).operands) : o = .ofSymbol x := by
    simp only [operands, Option.toList_some, List.cons_append, List.nil_append, List.mem_cons,
      Option.mem_toList] at ho
    rcases ho with rfl | rfl | ho
    · rfl
    · cases hvariable
    · rw [hlast o ho] at hvariable
      cases hvariable
  cases h with
  | alone _ _ hi =>
    obtain ⟨debug, rfl⟩ := hi
    exact hfirst (fun l hl => by cases hl; rfl) ho
  | segment _ hi =>
    obtain ⟨debug, rfl⟩ := hi
    exact hfirst (fun l hl => by cases hl; rfl) ho
  | store _ hi =>
    obtain ⟨debug, rfl⟩ := hi
    exact hfirst (fun l hl => by cases hl; rfl) ho
  | watched hi =>
    obtain ⟨debug, rfl⟩ := hi
    exact hfirst (fun l hl => by cases hl) ho

/-- A patched jump has no new operand but its target. -/
theorem operands_of_patch {target : Nat} (h : i.patch target = .ok j) {o : Operand}
    (ho : o ∈ j.operands) : o ∈ i.operands ∨ o = .label (some target) := by
  have hretarget (l : Operand) (ho : o ∈ (i.retarget l).operands) : o ∈ i.operands ∨ o = l := by
    unfold retarget at ho
    simp only [operands, List.mem_append, Option.mem_toList] at ho ⊢
    split at ho <;> grind
  unfold patch at h
  split at h
  · cases h
  · split at h <;> cases h
    exact hretarget _ ho

end Instruction

/-! ## Calls on used sessions -/

theorem Session.Used.reached {s : Session} (h : s.Used) : s.Reached := by
  refine h.mono fun t request ht hregular => ?_
  have hno := Used.no_defect ht
  cases request with
  | addClass c =>
    obtain ⟨d, symbols, procedures, rfl, -⟩ := hregular
    exact (d.numbered_filled symbols procedures).1
  | compile unit dialect => exact hno.1 unit dialect
  | watchExpression id node => exact hno.2.1 id node
  | _ => trivial

/-- In the course of a call on a used session, lowering is in a frame of the given site with the given
session. -/
inductive Working (f : Frame) (t : Session) : Prop where
  | unit {s : Session} (dialect : Dialect) : s.Used →
      Visits (s.unitSite dialect) (s.unitStart dialect).2 f t → Working f t
  | watch {s : Session} {id : Nat} {b : Block} : s.Used → s.block? id = some b →
      Visits (s.watchSite id b) { s with isWatching := true } f t → Working f t

namespace Working

variable {f : Frame} {t : Session}

theorem moment (h : Working f t) : Moment f t := by
  cases h with
  | unit dialect hs hv => exact .unit dialect hs.reached hv
  | watch hs hb hv => exact .watch hs.reached hb hv

theorem listed (h : Working f t) : t.Listed := by
  cases h with
  | @unit s dialect hs hv =>
    exact hv.widens.listed ((s.widens_unitStart dialect).listed hs.listed)
  | @watch s id b hs hb hv =>
    have hopen : s.Widens { s with isWatching := true } := .ofTables rfl rfl rfl
    exact hv.widens.listed (hopen.listed hs.listed)

end Working

/-! ## Emitted code -/

/-- A call on a used session has left the session, and in it the instruction, which runs in the scope
`ctx`: in the code of a block, or in the code of a watch expression of a block. -/
inductive Emits : Session → Option Nat → Instruction → Prop where
  | block {s : Session} {id : Nat} {b : Block} {i : Instruction} : s.Used → s.block? id = some b →
      i ∈ b.code → Emits s (b.procedure.bind ProcRef.classScope) i
  | watch {s : Session} {id j : Nat} {b : Block} {i : Instruction} (node : Node) : s.Used →
      s.block? id = some b → s.watch.size ≤ j →
      (s.watchExpression id node).2.watch[j]? = some i →
      Emits (s.watchExpression id node).2 (b.procedure.bind ProcRef.classScope) i

theorem Emits.used {s : Session} {ctx : Option Nat} {i : Instruction} (h : Emits s ctx i) : s.Used := by
  cases h with
  | block hs => exact hs
  | @watch s id _ _ _ node hs => exact .watchExpression id node hs

/-- A law that lowering keeps holds of all emitted code. -/
theorem Emits.lawful {s : Session} {ctx : Option Nat} {i : Instruction} (h : Emits s ctx i) (L : Law) :
    L.allows ctx s i := by
  cases h with
  | block hs hb hi => exact (hs.lawful L).2 _ i (.block hb hi)
  | watch node hs hb hj hi => exact hs.lawful_watch L hb node _ i (.watch rfl hj hi)

/-! ## Calls respect access

A procedure of a class is called where code may use it, be it a method, a constructor behind a dot, or the
setter of a member (`Emits.call_permitted`). A constructor that is called by the name of its class at the
root of a chain is looked for without regard to its access (`hidden_constructor_called`).
-/

namespace Instruction

/-- The instruction calls procedure `k` of a class. -/
structure CallsMethod (i : Instruction) (cls k : Nat) : Prop where
  opcode : i.opcode = .call ∨ i.opcode = .callr
  target : i.op1 = some (.function (some k))
  owner : i.op2 = some (.cls (some cls))

/-- The instruction calls at the root of a chain. -/
structure IsRootCall (i : Instruction) : Prop where
  opcode : i.opcode = .callr
  depth : i.op3 = some (.int 0)

theorem CallsMethod.not_isNeutral {i : Instruction} {cls k : Nat} (h : i.CallsMethod cls k) :
    ¬ i.IsNeutral := by
  intro hn
  have hmem : Operand.function (some k) ∈ i.operands := by
    unfold operands
    rw [h.target]
    exact List.mem_append_left _ (List.mem_append_left _ (List.mem_singleton_self _))
  cases hn _ hmem

theorem CallsMethod.not_accesses {i : Instruction} {cls k : Nat} (h : i.CallsMethod cls k)
    {x : Symbol} : ¬ i.Accesses x := by
  intro ha
  have haccess := ha.opcode
  rcases h.opcode with hop | hop
  · rw [hop] at haccess
    simp at haccess
  · rw [hop] at haccess
    simp at haccess

theorem CallsMethod.not_patched {i j : Instruction} {cls k target : Nat} (h : j.CallsMethod cls k) :
    i.patch target ≠ .ok j := by
  intro hp
  have hjump := isJump_of_patch hp
  rw [← (Flow.patch_eq hp).1] at hjump
  rcases h.opcode with hop | hop <;> rw [hop] at hjump <;> cases hjump

end Instruction

/-! ### What a search finds to call -/

namespace Session

/-- Procedure `k` of a class exists, and code in the scope `ctx` may call it; or it is a constructor, and is
called by the name of its class. -/
def MayCall (s : Session) (ctx : Option Nat) (cls k : Nat) (byName : Prop) : Prop :=
  ∃ p, s.procedure? ⟨some cls, k⟩ = some p ∧
    (s.Permits ctx cls p.access ∨ p.isConstructor = true ∧ byName)

theorem MayCall.widens {s t : Session} {ctx : Option Nat} {cls k : Nat} {byName : Prop}
    (h : s.MayCall ctx cls k byName) (hst : s.Widens t) : t.MayCall ctx cls k byName := by
  obtain ⟨p, hp, hmay⟩ := h
  obtain ⟨block, entry, locals, hq⟩ := hst.procedures _ p hp
  exact ⟨_, hq, hmay.imp_left fun hpermits => hpermits.widens hst⟩

/-- A procedure that is found along the base classes may be called. -/
theorem mayCall_of_lookup {s : Session} (hs : s.Tidy) {ctx : Option Nat} {cls arity : Nat}
    {name : String} {m : MemberRef} (h : s.classes.lookupProcedure cls name arity ctx = .found m) (byName : Prop) :
    s.MayCall ctx m.owner m.index byName := by
  obtain ⟨c, access, hc, hd, haccess⟩ := ClassTable.searchMember_accessible h
  obtain ⟨i, hi, heq⟩ := Option.map_eq_some_iff.mp hd
  cases heq
  obtain ⟨p, hp⟩ := Option.isSome_iff_exists.mp ((hs.classes _ c hc).procedures.find? hi)
  rw [hp] at haccess
  refine ⟨p, ?_, .inl (permits_of_isAccessible haccess)⟩
  rw [procedure?_some, hc]
  exact hp

end Session

namespace Lowering.Sight

variable {v : Sight} {cls k : Nat}

theorem mayCall_of_callTarget (hs : v.session.Tidy) {name : String} {arity : Nat} {c : Cursor}
    (h : v.callTarget name arity c = .procedure ⟨some cls, k⟩) :
    v.session.MayCall v.frame.scope.classScope cls k (c.depth = 0) := by
  unfold callTarget at h
  split at h
  · next hdepth =>
    unfold rootCall at h
    dsimp only at h
    split at h
    · next m hm =>
      cases h
      obtain ⟨owner, _, hfound⟩ := Option.bind_eq_some_iff.mp hm
      exact Session.mayCall_of_lookup hs (MemberLookup.eq_found hfound) _
    · split at h
      · cases h
      · split at h
        · cases h
        · next owner _ =>
          split at h
          · next i hi =>
            cases h
            obtain ⟨d, hd, hi⟩ := Option.bind_eq_some_iff.mp hi
            obtain ⟨p, hp, rfl⟩ := Option.map_eq_some_iff.mp hi
            refine ⟨p, ?_, .inr ⟨?_, hdepth⟩⟩
            · rw [Session.procedure?_some, hd]
              exact (hs.classes _ d hd).procedures.get?_index (List.mem_of_find?_eq_some hp)
            · have hfound := List.find?_some hp
              simp only [Bool.and_eq_true] at hfound
              exact hfound.1
          · cases h
  · unfold memberCall at h
    dsimp only at h
    split at h
    · cases h
    · split at h
      · cases h
      · split at h
        · cases h
        · cases h
        · next m hm =>
          split at h
          · cases h
          · split at h
            · cases h
            · cases h
              exact Session.mayCall_of_lookup hs hm _

theorem mayCall_of_setter? (hs : v.session.Tidy) {target : Option Nat} {property : Identifier}
    (h : setter? v target property = some ⟨some cls, k⟩) (byName : Prop) :
    v.session.MayCall v.frame.scope.classScope cls k byName := by
  unfold setter? at h
  split at h
  · obtain ⟨m, hm, heq⟩ := Option.map_eq_some_iff.mp h
    cases heq
    exact Session.mayCall_of_lookup hs (MemberLookup.eq_found hm) _
  · cases h

end Lowering.Sight

/-! ### The law of calls -/

/-- Procedures of classes are called where they may be. -/
def callLaw : Law where
  allows ctx s i := ∀ cls k, i.CallsMethod cls k → s.MayCall ctx cls k i.IsRootCall
  widens hst h cls k hi := (h cls k hi).widens hst
  patch hp _ _ _ hj := absurd hp hj.not_patched
  neutral hn _ _ hi := absurd hn hi.not_isNeutral
  declared _ _ ha _ _ hi := absurd ha hi.not_accesses
  access _ _ _ _ ha _ _ hi := absurd ha hi.not_accesses
  call {w f s blocks r op depth i} hr _ hreach hcalls := by
    intro cls k hi
    obtain ⟨debug, rfl⟩ := hcalls
    obtain ⟨owner, index⟩ := r
    cases hi.target
    cases hi.owner
    cases hreach with
    | call name arity c h =>
      obtain ⟨p, hp, hmay⟩ := Sight.mayCall_of_callTarget hr.tidy h
      refine ⟨p, hp, hmay.imp_right fun hroot => ⟨hroot.1, rfl, ?_⟩⟩
      rw [hroot.2]
      rfl
    | setter target property depth h => exact Sight.mayCall_of_setter? hr.tidy h _

/-- Emitted calls of procedures of classes respect access: the procedure is public, or private and the code
is of its class, or protected and the code is of its class or one that derives from it. This holds of
methods, setters and constructors, unless a constructor is called at the root of a chain. -/
theorem Emits.call_permitted {s : Session} {ctx : Option Nat} {i : Instruction} (h : Emits s ctx i)
    {cls k : Nat} (hi : i.CallsMethod cls k) :
    ∃ p, s.procedure? ⟨some cls, k⟩ = some p ∧
      (s.Permits ctx cls p.access ∨ p.isConstructor = true ∧ i.IsRootCall) :=
  h.lawful callLaw cls k hi

/-- A method calls a private one of its class. -/
theorem method_calls_private :
    let method (name : String) (access : Access) (body : List Node) : Function :=
      { name, params := [], returns := .var, body, attributes := [], isStatic := false
        isConstructor := false, access, span := .nil }
    let hidden : Node := .call { name := "a", args := [], dims := [], guides := [], span := .nil }
    let methods := [method "a" .isPrivate [], method "b" .isPublic [.ret (some hidden) .nil]]
    let cls : Node := .classDecl
      { name := "C", base := none, members := [], methods, attributes := [], span := .nil }
    let s := (Session.compile (.new {}) [cls] .associative).2
    let i : Instruction := .ternary .callr (.function (some 0)) (.cls (some 12)) (.int 0)
    Emits s (some 12) i ∧ i.CallsMethod 12 0 ∧
      ∃ p, s.procedure? ⟨some 12, 0⟩ = some p ∧
        (s.Permits (some 12) 12 p.access ∨ p.isConstructor = true ∧ i.IsRootCall) := by
  intro method hidden methods cls s i
  have hcode : ∃ b, s.block? 2 = some b ∧ b.procedure.bind ProcRef.classScope = some 12 ∧ i ∈ b.code := by
    refine ⟨(s.block? 2).getD default, ?_, ?_, ?_⟩ <;> decide +kernel
  have hemits : Emits s (some 12) i := by
    obtain ⟨b, hb, hscope, hi⟩ := hcode
    exact hscope ▸ Emits.block (.compile _ .associative (.new {})) hb hi
  have hcalls : i.CallsMethod 12 0 := ⟨.inr rfl, rfl, rfl⟩
  exact ⟨hemits, hcalls, hemits.call_permitted hcalls⟩

/-- A private constructor is called from outside of its class, by the name of the class. -/
theorem hidden_constructor_called :
    let constructor : Function :=
      { name := "C", params := [], returns := .var, body := [], attributes := [], isStatic := false
        isConstructor := true, access := .isPrivate, span := .nil }
    let cls : Node := .classDecl
      { name := "C", base := none, members := [], methods := [constructor], attributes := []
        span := .nil }
    let value : Node := .call { name := "C", args := [], dims := [], guides := [], span := .nil }
    let unit := [cls, .assign (.identifier (.plain "x" .nil)) value .nil]
    let s := (Session.compile (.new {}) unit .associative).2
    s.diagnostics.size = 0 ∧ ∃ i p, Emits s none i ∧ i.CallsMethod 12 0 ∧
      s.procedure? ⟨some 12, 0⟩ = some p ∧ ¬ s.Permits none 12 p.access := by
  intro constructor cls value unit s
  have hcode : ∃ b, s.block? 0 = some b ∧ b.procedure.bind ProcRef.classScope = none ∧
      .ternary .callr (.function (some 0)) (.cls (some 12)) (.int 0) ∈ b.code := by
    refine ⟨(s.block? 0).getD default, ?_, ?_, ?_⟩ <;> decide +kernel
  have hprocedure : (s.procedure? ⟨some 12, 0⟩).map Procedure.access = some .isPrivate := by
    decide +kernel
  obtain ⟨b, hb, hscope, hi⟩ := hcode
  obtain ⟨p, hp, haccess⟩ := Option.map_eq_some_iff.mp hprocedure
  have hemits := Emits.block (.compile _ .associative (.new {})) hb hi
  rw [hscope] at hemits
  refine ⟨by decide +kernel, _, p, hemits, ⟨.inr rfl, rfl, rfl⟩, hp, fun hpermits => ?_⟩
  rw [haccess] at hpermits
  cases hpermits with
  | isPrivate hctx => cases hctx

end Diglot
