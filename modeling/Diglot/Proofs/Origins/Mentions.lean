import Diglot.Proofs.Course.Unit
import Diglot.Proofs.Law.Widening
import Diglot.Proofs.Tree.Session

/-! # The calls in a tree

`Node.Mentions name args n`: the tree `n` has a call of that name with those arguments in it. Lowering
takes trees apart and makes new ones: it takes parentheses off, moves subscripts, and assigns first values
of variables. None of this brings in a call that was not there before (`Node.CallsOnly`).
-/

set_option autoImplicit false

namespace Diglot

namespace Node

/-- The trees that a tree is made of. Defaults of parameters and arguments of attributes are not lowered,
and left out. -/
def parts : Node → List Node
  | .identifier ident => ident.dims
  | .member left right _ _ _ => [left, right]
  | .call c => c.args ++ c.dims
  | .list items dims _ _ => items ++ dims
  | .range first last step _ => first :: last :: step.toList
  | .unary _ operand _ => [operand]
  | .binary left _ right _ => [left, right]
  | .group inner dims _ _ => inner :: dims
  | .assign target value _ => [target, value]
  | .ret value _ => value.toList
  | .branch condition body otherwise _ => condition :: (body ++ otherwise)
  | .loop condition body _ => condition :: body
  | .block _ body _ => body
  | .function f => f.body
  | .classDecl c => c.members.filterMap Variable.value ++ c.methods.flatMap Function.body
  | .varDecl v => v.value.toList
  | .literal .. | .defaultArg _ | .dynamic _ | .breakLoop _ | .continueLoop _ => []

/-- The tree has a call of the name with the arguments in it. -/
inductive Mentions (name : String) (args : List Node) : Node → Prop where
  | call {c : Call} : c.name = name → c.args = args → Mentions name args (.call c)
  | part {n m : Node} : m ∈ n.parts → Mentions name args m → Mentions name args n

/-- All calls in the tree are of a kind. -/
def CallsOnly (P : String → List Node → Prop) (n : Node) : Prop :=
  ∀ name args, n.Mentions name args → P name args

namespace CallsOnly

variable {P : String → List Node → Prop} {n m inner left right : Node} {dims : List Node}
  {guides : List Guide}

theorem part (h : n.CallsOnly P) (hm : m ∈ n.parts) : m.CallsOnly P :=
  fun name args hmention => h name args (.part hm hmention)

theorem call {c : Call} (h : (Node.call c).CallsOnly P) : P c.name c.args := h _ _ (.call rfl rfl)

theorem ofParts (hcall : ∀ c, n = .call c → P c.name c.args)
    (hparts : ∀ m ∈ n.parts, m.CallsOnly P) : n.CallsOnly P := by
  intro name args hmention
  cases hmention with
  | @call c hname hargs => exact hname ▸ hargs ▸ hcall c rfl
  | part hm hmention => exact hparts _ hm name args hmention

/-- A tree that is no call has the calls of its parts. -/
theorem ofOther (hn : ∀ c, n ≠ .call c) (hparts : ∀ m ∈ n.parts, m.CallsOnly P) : n.CallsOnly P :=
  ofParts (fun c hc => absurd hc (hn c)) hparts

theorem plain (name : String) (span : Span) : (Node.identifier (.plain name span)).CallsOnly P :=
  ofOther nofun fun _ hm => absurd hm List.not_mem_nil

theorem join {op : Operator} {lastFactor : Bool} {span : Span} (hl : left.CallsOnly P)
    (hr : right.CallsOnly P) : (Node.member left right op lastFactor span).CallsOnly P := by
  refine ofOther nofun fun m hm => ?_
  rcases List.mem_cons.mp hm with rfl | hm
  · exact hl
  · rw [List.mem_singleton.mp hm]
    exact hr

theorem assign {target value : Node} {span : Span} (ht : target.CallsOnly P) (hv : value.CallsOnly P) :
    (Node.assign target value span).CallsOnly P := by
  refine ofOther nofun fun m hm => ?_
  rcases List.mem_cons.mp hm with rfl | hm
  · exact ht
  · rw [List.mem_singleton.mp hm]
    exact hv

theorem ungroup (hi : inner.CallsOnly P) (hd : ∀ d ∈ dims, d.CallsOnly P) :
    (inner.ungroup dims guides).CallsOnly P := by
  unfold Node.ungroup
  split
  · exact hi
  cases inner with
  | identifier ident => exact ofOther nofun hd
  | call c =>
    refine ofParts (fun c' hc => ?_) fun m hm => ?_
    · cases hc
      exact hi.call
    · rcases List.mem_append.mp hm with hm | hm
      · exact hi.part (List.mem_append_left _ hm)
      · exact hd m hm
  | list items =>
    refine ofOther nofun fun m hm => ?_
    rcases List.mem_append.mp hm with hm | hm
    · exact hi.part (List.mem_append_left _ hm)
    · exact hd m hm
  | group e =>
    refine ofOther nofun fun m hm => ?_
    rcases List.mem_cons.mp hm with rfl | hm
    · exact hi.part (List.mem_cons_self ..)
    · exact hd m hm
  | _ => exact hi

theorem unwrap (h : n.CallsOnly P) : n.unwrap.CallsOnly P := by
  fun_induction Node.unwrap n with
  | case1 inner dims guides span hinner ih =>
    refine ungroup (ih (h.part (List.mem_cons_self ..))) fun d hd => ?_
    exact h.part (List.mem_cons_of_mem inner hd)
  | case2 | case3 => exact h

theorem segments (h : n.CallsOnly P) {l : List Node} (hl : n.segments = .ok l) :
    ∀ m ∈ l, m.CallsOnly P := by
  fun_induction Node.segments n generalizing l with
  | case1 | case2 | case4 => cases hl
  | case3 left right lastFactor span ls hls rs hrs ihl ihr =>
    cases hl
    intro m hm
    rcases List.mem_append.mp hm with hm | hm
    · exact ihl (h.part (List.mem_cons_self ..)) hls m hm
    · exact ihr (h.part (List.mem_cons_of_mem left (List.mem_singleton_self right))) hrs m hm
  | case5 n hn =>
    cases hl
    intro m hm
    rw [List.mem_singleton.mp hm]
    exact h

end CallsOnly

end Node

namespace Lowering

variable {P : String → List Node → Prop}

/-- The assignment of a first value has the calls of the value. -/
theorem callsOnly_initializer {v : Variable} (h : ∀ value, v.value = some value → value.CallsOnly P)
    {assignment : Node} (ha : initializer? v = some assignment) : assignment.CallsOnly P := by
  obtain ⟨value, hv, rfl⟩ := Option.map_eq_some_iff.mp ha
  exact .assign (.plain _ _) (h value hv)

/-- What a class is lowered to has the calls of the class in it, and is lighter. -/
theorem lowerClassBody_callsOnly {J : Lower Unit → Prop} (hpure : J (pure ()))
    (hbind : ∀ {m k : Lower Unit}, J m → J k → J (m >>= fun _ => k)) {c : ClassDecl}
    (hc : (Node.classDecl c).CallsOnly P) (hmembers : J (lowerMembers c.members))
    (hfunction : ∀ (fn : Function) (isGenerated : Bool),
      (∀ n ∈ fn.body, n.weight < c.weight ∧ n.CallsOnly P) →
      J (lowerFunction statement fn isGenerated)) : J (lowerClassBody statement c) := by
  have hforM {α : Type} {l : List α} {k : α → Lower Unit} (h : ∀ a ∈ l, J (k a)) :
      J (l.forM k) := by
    induction l with
    | nil => exact hpure
    | cons a rest ih =>
      exact hbind (h a (List.mem_cons_self ..)) (ih fun b hb => h b (List.mem_cons_of_mem a hb))
  have hfirst (p : Variable → Bool) {n : Node}
      (hn : n ∈ (c.members.filter p).filterMap initializer?) : n.CallsOnly P := by
    obtain ⟨v, hv, ha⟩ := List.mem_filterMap.mp hn
    refine callsOnly_initializer (fun value hvalue => hc.part (List.mem_append_left _ ?_)) ha
    exact List.mem_filterMap.mpr ⟨v, (List.mem_filter.mp hv).1, hvalue⟩
  have hmethod {fn : Function} (hfn : fn ∈ c.methods) {n : Node} (hn : n ∈ fn.body) : n.CallsOnly P :=
    hc.part (List.mem_append_right _ (List.mem_flatMap.mpr ⟨fn, hfn, hn⟩))
  refine hbind hmembers (hbind (hforM fun v hv => ?_) (hbind (hforM fun fn hfn => ?_)
    (hbind (hforM fun fn hfn => ?_) ?_)))
  · have hlt := weight_member_lt (List.mem_filter.mp hv).1
    refine hbind (hfunction _ _ fun n hn => ⟨?_, ?_⟩) (hfunction _ _ fun n hn => ⟨?_, ?_⟩)
    · exact Nat.lt_of_le_of_lt (weight_accessor_le (.inl hn)) hlt
    · rw [List.mem_singleton.mp hn]
      refine .ofOther nofun fun m hm => ?_
      rw [List.mem_singleton.mp hm]
      exact .plain _ _
    · exact Nat.lt_of_le_of_lt (weight_accessor_le (.inr hn)) hlt
    · rw [List.mem_singleton.mp hn]
      exact .assign (.plain _ _) (.plain _ _)
  · unfold staticInitializer? at hfn
    split at hfn
    · cases hfn
    · rw [List.mem_singleton.mp hfn]
      exact hfunction _ _ fun n hn => ⟨weight_initializers_lt hn, hfirst _ hn⟩
  · refine hfunction _ _ fun n hn => ⟨weight_withInitializers_lt hfn hn, ?_⟩
    unfold withInitializers at hn
    split at hn
    · rcases List.mem_append.mp hn with hn | hn
      · exact hfirst _ hn
      · exact hmethod hfn hn
    · exact hmethod hfn hn
  · split
    · exact hfunction _ _ fun n hn => ⟨weight_initializers_lt hn, hfirst _ hn⟩
    · exact hpure

end Lowering

/-! ## What code refers to stays

Code refers to procedures, to entries of what is looked up at run time, and to blocks. Entries stay in
place (`Session.KeepsLate`), and blocks stay where they were put (`Session.KeepsPlaces`), as do the other
tables (`Session.Advances`), in the course of every run (`Course.advances`).
-/

open Lowering

namespace Session

/-- Late-bound members stay in place, and late-bound procedures are the same ones. -/
structure KeepsLate (s t : Session) : Prop where
  members : s.lateVariables.size ≤ t.lateVariables.size
  functions : ∀ (i : Nat) (e : LateFunction), s.lateFunctions[i]? = some e →
    t.lateFunctions[i]? = some e

namespace KeepsLate

variable {s t u : Session}

theorem refl (s : Session) : s.KeepsLate s := ⟨Nat.le_refl _, fun _ _ h => h⟩

theorem trans (h : s.KeepsLate t) (h' : t.KeepsLate u) : s.KeepsLate u :=
  ⟨Nat.le_trans h.members h'.members, fun i e he => h'.functions i e (h.functions i e he)⟩

theorem ofSame (hv : t.lateVariables = s.lateVariables) (hf : t.lateFunctions = s.lateFunctions) :
    s.KeepsLate t := ⟨Nat.le_of_eq (by rw [hv]), fun i e he => by rw [hf]; exact he⟩

theorem enterMember (s : Session) (cls : Nat) (x : Symbol) : s.KeepsLate (s.enterMember cls x) := by
  unfold Session.enterMember
  dsimp only
  split <;> exact ofSame rfl rfl

theorem declare (s : Session) (f : Frame) (d : Declaration) : s.KeepsLate (s.declare f d) := by
  obtain ⟨cls, counters, -, -, -, -, h⟩ | ⟨counters, -, -, h⟩ := s.declare_cases f d
  · rw [h]
    have hcounters : s.KeepsLate { s with counters } := ofSame rfl rfl
    exact hcounters.trans (enterMember { s with counters } cls _)
  · rw [h]
    exact ofSame rfl rfl

theorem modifyProcedure (s : Session) (r : ProcRef) (g : Procedure → Procedure) :
    s.KeepsLate (s.modifyProcedure r g) := by
  unfold Session.modifyProcedure
  split <;> exact ofSame rfl rfl

theorem openProcedure (s : Session) (f : Frame) (p : Procedure) (message : String) :
    s.KeepsLate (s.openProcedure f p message) := by
  have hregister : s.KeepsLate (s.register f.scope p) := by
    unfold Session.register
    split <;> exact ofSame rfl rfl
  have hblock : (s.register f.scope p).KeepsLate
      (((s.register f.scope p).addBlock .function f.dialect (some f.block)).modifyBlock s.blocks.size
        fun b => { b with procedure := some (s.nextProcedure f.scope) }) := ofSame rfl rfl
  refine (hregister.trans hblock).trans ((modifyProcedure _ (s.nextProcedure f.scope)
    fun p => { p with block := some s.blocks.size }).trans ?_)
  exact ofSame rfl rfl

theorem change {K : OpCode → Prop} {f : Frame} (h : Change K f s t) : s.KeepsLate t := by
  cases h with
  | emit i span =>
    unfold Session.emit
    split <;> exact ofSame rfl rfl
  | patch =>
    unfold Session.replaceCode
    split <;> exact ofSame rfl rfl
  | declare d => exact declare s f d
  | lateVariable entry => exact ⟨by simp, fun _ _ he => he⟩
  | lateMember i name => exact ⟨by simp, fun _ _ he => he⟩
  | lateFunction entry =>
    refine ⟨Nat.le_refl _, fun i e he => ?_⟩
    obtain ⟨hlt, _⟩ := Array.getElem?_eq_some_iff.mp he
    change (s.lateFunctions.push entry)[i]? = some e
    rw [Array.getElem?_push, if_neg (Nat.ne_of_lt hlt)]
    exact he
  | _ => exact ofSame rfl rfl

end KeepsLate

/-- No step of lowering removes a late-bound entry. -/
theorem lasting_keepsLate (s : Session) : Lasting s.KeepsLate where
  change h hc := h.trans (.change hc)
  openBlock _ h _ := h.trans (.ofSame rfl rfl)
  openProcedure p message h _ _ := h.trans (.openProcedure _ _ p message)
  setLocals _ h := h.trans (.ofSame rfl rfl)
  modifyProcedure r _ _ h := h.trans (.modifyProcedure _ r _)
  appendClass h _ _ _ := h.trans (.ofSame rfl rfl)

/-- Blocks are of the same kind as before, below the same blocks. -/
def KeepsPlaces (s t : Session) : Prop :=
  ∀ i l, s.links? i = some l → ∃ l', t.links? i = some l' ∧ l'.kind = l.kind ∧ l'.parent = l.parent

namespace KeepsPlaces

variable {s t u : Session}

theorem ofSame (h : t.links? = s.links?) : s.KeepsPlaces t :=
  fun i l hl => ⟨l, (congrFun h i).trans hl, rfl, rfl⟩

theorem trans (h : s.KeepsPlaces t) (h' : t.KeepsPlaces u) : s.KeepsPlaces u := by
  intro i l hl
  obtain ⟨l', hl', hkind', hparent'⟩ := h i l hl
  obtain ⟨l'', hl'', hkind'', hparent''⟩ := h' i l' hl'
  exact ⟨l'', hl'', hkind''.trans hkind', hparent''.trans hparent'⟩

/-- A block that is added changes no other block but for the children of its parent. -/
theorem ofAdded {parent child : Nat} {new : Links} (h : ∀ i, t.links? i =
    if i = s.blocks.size then some new else (s.links? i).map (Links.adopt (some parent) i child)) :
    s.KeepsPlaces t := by
  intro i l hl
  have hi : i ≠ s.blocks.size := Nat.ne_of_lt (lt_of_links? hl)
  exact ⟨l.adopt (some parent) i child, by rw [h, if_neg hi, hl, Option.map_some],
    Links.adopt_kind .., Links.adopt_parent ..⟩

theorem openBlock {f : Frame} (hf : f.Placed s) (dialect : Dialect) :
    s.KeepsPlaces (s.openBlock f dialect) := ofAdded (links?_openBlock hf dialect)

theorem openProcedure {f : Frame} (hf : f.Placed s) (p : Procedure) (message : String) :
    s.KeepsPlaces (s.openProcedure f p message) := ofAdded (links?_openProcedure hf p message)

/-- A block is still of its kind, below its parent. -/
theorem of_block? (h : s.KeepsPlaces t) {id : Nat} {b : Block} (hb : t.block? id = some b) {l : Links}
    (hl : s.links? id = some l) : b.kind = l.kind ∧ b.parent = l.parent := by
  obtain ⟨l', hl', hkind, hparent⟩ := h id l hl
  obtain ⟨b', hb', rfl⟩ := links?_eq_some.mp hl'
  rw [hb] at hb'
  cases hb'
  exact ⟨hkind, hparent⟩

end KeepsPlaces

theorem lasting_keepsPlaces (s : Session) : Lasting s.KeepsPlaces where
  change h hc := h.trans (.ofSame hc.links?_eq)
  openBlock dialect h hf := h.trans (.openBlock hf dialect)
  openProcedure p message h hf _ := h.trans (.openProcedure hf p message)
  setLocals _ h := h
  modifyProcedure _ _ _ h := h.trans (.ofSame (links?_of_blocks (blocks_modifyProcedure _ _ _)))
  appendClass h _ _ _ := h

/-- All that code refers to stays. -/
structure Advances (s t : Session) : Prop extends s.Widens t, s.KeepsLate t where
  places : s.KeepsPlaces t

namespace Advances

variable {s t u : Session}

theorem refl (s : Session) : s.Advances s := ⟨.refl s, .refl s, .ofSame rfl⟩

theorem trans (h : s.Advances t) (h' : t.Advances u) : s.Advances u :=
  ⟨h.toWidens.trans h'.toWidens, h.toKeepsLate.trans h'.toKeepsLate, h.places.trans h'.places⟩

theorem openBlock {f : Frame} (hf : f.Placed s) (dialect : Dialect) :
    s.Advances (s.openBlock f dialect) :=
  ⟨s.widens_openBlock f dialect, .ofSame rfl rfl, .openBlock hf dialect⟩

theorem openProcedure {f : Frame} (hf : f.Placed s) (p : Procedure) (message : String) :
    s.Advances (s.openProcedure f p message) :=
  ⟨s.widens_openProcedure f p message, .openProcedure s f p message, .openProcedure hf p message⟩

end Advances

end Session

/-- In the course of a run all that code refers to stays. -/
theorem Lowering.Course.advances {w : Bool} {P : Instruction → Prop} {α : Type} {f : Frame} {s : State}
    {m : Lower α} (h : Course True P f s m) (hr : Ready w f s) :
    s.session.Advances (final (m f s)) :=
  ⟨h.widens hr, h.lasts (Session.lasting_keepsLate s.session) hr (.refl _),
    h.lasts (Session.lasting_keepsPlaces s.session) hr (.ofSame rfl)⟩

end Diglot
