import Diglot.Proofs.Access.Basic
import Diglot.Proofs.Access.Mirrors

/-! # Variables respect access

A variable that code finds behind a name is a local or global one, a member that the code may use, or the
entry of a static member that it may use (`Session.MayUse`). Instructions are only emitted for what is
found, so that no code reads or stores a member which its class does not permit it to use
(`members_respect_access`).
-/

set_option autoImplicit false

namespace Diglot

open Lowering

namespace Session

variable {s t : Session} {ctx : Option Nat} {r : SymbolRef} {x : Symbol} {name : String}
  {p : Symbol → Bool}

/-! ## The first symbol of a name -/

/-- The symbol is the first one of its table that has the name and satisfies the condition. -/
structure IsFirst (s : Session) (r : SymbolRef) (x : Symbol) (name : String) (p : Symbol → Bool) :
    Prop where
  symbol : s.symbol? r = some x
  named : x.name = name
  holds : p x = true
  first : ∀ i, i < r.index → ∀ y, s.symbol? ⟨r.owner, i⟩ = some y → y.name = name → p y = false

theorem IsFirst.widens (h : s.IsFirst r x name p) (hst : s.Widens t) : t.IsFirst r x name p := by
  refine ⟨hst.symbols r x h.symbol, h.named, h.holds, fun i hi y hy => ?_⟩
  -- An earlier place of the table was taken already.
  have hold : ∃ z, s.symbol? ⟨r.owner, i⟩ = some z := by
    have hx : (s.symbolsOf r.owner)[r.index]? = some x := (getElem?_symbolsOf s _ _).trans h.symbol
    have hlt := (List.getElem?_eq_some_iff.mp hx).1
    rw [← getElem?_symbolsOf]
    exact ⟨_, List.getElem?_eq_getElem (Nat.lt_trans hi hlt)⟩
  obtain ⟨z, hz⟩ := hold
  have hsame := hst.symbols _ z hz
  rw [hy] at hsame
  cases hsame
  exact h.first i hi y hz

/-- It is also the first one among those that satisfy the condition. -/
theorem IsFirst.find?_picked (h : s.IsFirst r x name p) :
    (s.picked r.owner p).find? (fun y => y.name == name) = some x.bare := by
  have hx : (s.symbolsOf r.owner)[r.index]? = some x := (getElem?_symbolsOf s _ _).trans h.symbol
  obtain ⟨hlt, hget⟩ := List.getElem?_eq_some_iff.mp hx
  have hfirst : (s.symbolsOf r.owner).find? (fun y => decide (p y = true ∧ (y.name == name) = true)) =
      some x := by
    refine List.find?_eq_some_iff_getElem.mpr ⟨?_, r.index, hlt, hget, fun i hi => ?_⟩
    · exact decide_eq_true ⟨h.holds, beq_iff_eq.mpr h.named⟩
    · have hi' := Nat.lt_trans hi hlt
      have hy := h.first i hi _ ((getElem?_symbolsOf s _ _).symm.trans (List.getElem?_eq_getElem hi'))
      have hnot : ¬ (p (s.symbolsOf r.owner)[i] = true ∧
          ((s.symbolsOf r.owner)[i].name == name) = true) := by
        intro ⟨hp, hname⟩
        rw [hy (beq_iff_eq.mp hname)] at hp
        cases hp
      rw [decide_eq_false hnot]
      rfl
  unfold picked
  rw [List.find?_map, List.find?_filter]
  exact (congrArg (Option.map Symbol.bare) hfirst).trans rfl

/-- The entry that is found in the first block is that of the static member that is found in the class. -/
theorem Mirrored.bare_eq (h : s.Mirrored) (hs : s.Coherent) {cls j k : Nat} {y : Symbol}
    (hx : s.IsFirst ⟨.block 0, j⟩ x name (Symbol.isStaticIn cls))
    (hy : s.IsFirst ⟨.cls cls, k⟩ y name fun z => z.function == none) (hstatic : y.isStatic = true) :
    x.bare = y.bare := by
  have hsame : s.entries cls = s.statics cls := by
    have hentry : x.bare ∈ s.entries cls := mem_picked hx.symbol hx.holds
    have hmember : y.bare ∈ s.statics cls := mem_picked hy.symbol hstatic
    rcases h.same cls with hsame | hnone | hnone
    · exact hsame
    · rw [hnone] at hentry
      cases hentry
    · rw [hnone] at hmember
      cases hmember
  -- All entries of the first block are outside of procedures, and so are the members they stand for.
  have houtside : ∀ z ∈ s.statics cls, z.function = none := by
    intro z hz
    rw [← hsame] at hz
    obtain ⟨z', hz', rfl⟩ := List.mem_map.mp hz
    obtain ⟨i, hi⟩ := List.mem_iff_getElem?.mp (List.mem_filter.mp hz').1
    rw [getElem?_symbolsOf, symbol?_block] at hi
    obtain ⟨hd, hheader, hi⟩ := Option.bind_eq_some_iff.mp hi
    have hfunction := (hs.entries 0 hd hheader i z' hi).2
    rw [hs.first hd hheader] at hfunction
    exact hfunction
  have hfirst : s.IsFirst ⟨.cls cls, k⟩ y name Symbol.isStatic := by
    refine ⟨hy.symbol, hy.named, hstatic, fun i hi z hz hname => ?_⟩
    cases hzs : z.isStatic with
    | false => rfl
    | true =>
      have hnone : z.function = none := houtside z.bare (mem_picked hz hzs)
      have hnot := hy.first i hi z hz hname
      rw [hnone] at hnot
      cases hnot
  have hfound := hx.find?_picked
  rw [show s.picked (.block 0) (Symbol.isStaticIn cls) = s.statics cls from hsame] at hfound
  exact Option.some.inj (hfound.symm.trans hfirst.find?_picked)

end Session

/-! ## Searches in listed tables -/

theorem SymbolTable.Indexed.first_of_findNamed? {t : SymbolTable} (h : t.Indexed) {name : String}
    {p : Symbol → Bool} {i : Nat} (hi : t.findNamed? name p = some i) :
    ∃ x, t.get? i = some x ∧ x.name = name ∧ p x = true ∧
      ∀ j, j < i → ∀ y, t.get? j = some y → y.name = name → p y = false := by
  obtain ⟨x, hx, hname, hp⟩ := h.name_of_findNamed? hi
  refine ⟨x, hx, hname, hp, fun j hj y hy hyname => Bool.eq_false_iff.mpr fun hpy => ?_⟩
  obtain ⟨k, z, hk, hle, _⟩ := h.findNamed?_le hy hpy
  rw [hyname, hi] at hk
  cases hk
  exact Nat.not_lt_of_le hle hj

namespace Session

variable {s t : Session} {ctx : Option Nat} {r : SymbolRef} {x : Symbol}

/-! ## Variables that code may use -/

/-- Code in the scope `ctx` may use the symbol: it is a local or global variable, a member that its class
permits the code to use, or the entry in the first block of such a member. -/
inductive MayUse (s : Session) (ctx : Option Nat) (x : Symbol) : SymbolRef → Prop where
  | plain {id k : Nat} : x.isMember = false → MayUse s ctx x ⟨.block id, k⟩
  | member {cls k : Nat} : s.Permits ctx cls x.access → MayUse s ctx x ⟨.cls cls, k⟩
  | entry {cls j k : Nat} {y : Symbol} : s.symbol? ⟨.cls cls, k⟩ = some y → y.isStatic = true →
      x.bare = y.bare → s.Permits ctx cls y.access → MayUse s ctx x ⟨.block 0, j⟩

/-- Why code in the scope `ctx` finds the symbol. Of the entry of a static member it says what the search has
seen, which no later declaration changes. -/
inductive Finds (s : Session) (ctx : Option Nat) (x : Symbol) : SymbolRef → Prop where
  | plain {id k : Nat} : x.isMember = false → Finds s ctx x ⟨.block id, k⟩
  | member {cls k : Nat} : s.Permits ctx cls x.access → Finds s ctx x ⟨.cls cls, k⟩
  | entry {cls j k : Nat} {name : String} {y : Symbol} :
      s.IsFirst ⟨.block 0, j⟩ x name (Symbol.isStaticIn cls) →
      s.IsFirst ⟨.cls cls, k⟩ y name (fun z => z.function == none) → y.isStatic = true →
      s.Permits ctx cls y.access → Finds s ctx x ⟨.block 0, j⟩

theorem Finds.widens (h : s.Finds ctx x r) (hst : s.Widens t) : t.Finds ctx x r := by
  cases h with
  | plain hx => exact .plain hx
  | member hp => exact .member (hp.widens hst)
  | entry hx hy hstatic hp => exact .entry (hx.widens hst) (hy.widens hst) hstatic (hp.widens hst)

/-- What code finds it may use. -/
theorem Finds.mayUse (h : s.Finds ctx x r) (hm : s.Mirrored) (hs : s.Coherent) : s.MayUse ctx x r := by
  cases h with
  | plain hx => exact .plain hx
  | member hp => exact .member hp
  | entry hx hy hstatic hp => exact .entry hy.symbol hstatic (hm.bare_eq hs hx hy hstatic) hp

end Session

namespace Lowering.Sight

variable {v : Sight} {name : String} {r : SymbolRef} {x : Symbol}

/-! ## What lookups find -/

theorem isFirst_of_findNamed? (hl : v.session.Listed) {block i : Nat} {p : Symbol → Bool}
    (h : (v.symbolsOf block).findNamed? name p = some i) :
    ∃ y, v.session.IsFirst ⟨.block block, i⟩ y name p := by
  rw [symbolsOf_eq] at h
  cases hd : v.session.header? block with
  | none =>
    rw [hd] at h
    cases h
  | some hd' =>
    rw [hd] at h
    obtain ⟨y, hy, hname, hp, hfirst⟩ := (hl.blocks block hd' hd).first_of_findNamed? h
    have hget (j : Nat) : v.session.symbol? ⟨.block block, j⟩ = hd'.symbols.get? j := by
      rw [Session.symbol?_block, hd]
      rfl
    exact ⟨y, (hget i).trans hy, hname, hp, fun j hj z hz => hfirst j hj z ((hget j).symm.trans hz)⟩

theorem finds_of_inBlock? {block : Nat} (h : v.inBlock? name block = some r)
    (hx : v.session.symbol? r = some x) : v.session.Finds v.frame.scope.classScope x r := by
  obtain ⟨i, y, rfl, hy, hvisible⟩ := inBlock?_eq_some h
  rw [hx] at hy
  cases hy
  simp only [isVisible, Bool.and_eq_true, Bool.not_eq_true'] at hvisible
  exact .plain hvisible.1.1

theorem finds_of_inProcedure? (h : v.inProcedure? name = some r)
    (hx : v.session.symbol? r = some x) : v.session.Finds v.frame.scope.classScope x r := by
  have hinside : v.frame.scope.function.isSome := by
    unfold inProcedure? at h
    split at h
    · next hfn _ => rw [hfn]; rfl
    · cases h
  obtain ⟨body, i, y, _, rfl, hy, hfunction⟩ := inProcedure?_eq_some h
  rw [hx] at hy
  cases hy
  refine .plain ?_
  obtain ⟨fn, hfn⟩ := Option.isSome_iff_exists.mp hinside
  rw [Symbol.isMember, hfunction, hfn]
  exact Bool.and_false _

theorem finds_of_inClass (hl : v.session.Listed) {cls : Nat} (h : v.inClass cls name = .found r)
    (hx : v.session.symbol? r = some x) : v.session.Finds v.frame.scope.classScope x r := by
  unfold inClass at h
  split at h
  · cases h
  · cases h
  next m hm =>
  obtain ⟨c, access, hc, hd, haccess⟩ := ClassTable.searchMember_accessible hm
  obtain ⟨i, hi, heq⟩ := Option.map_eq_some_iff.mp hd
  cases heq
  obtain ⟨y, hy, hname, hfn, hfirst⟩ := (hl.classes _ c hc).first_of_findNamed? hi
  rw [hy] at haccess
  have hpermits : v.session.Permits v.frame.scope.classScope m.owner y.access :=
    Session.permits_of_isAccessible haccess
  have hget (j : Nat) : v.session.symbol? ⟨.cls m.owner, j⟩ = c.symbols.get? j := by
    rw [Session.symbol?_cls, hc]
    rfl
  split at h
  · -- The member is static, and its entry in the first block is found.
    next r' hentry =>
    cases h
    split at hentry
    · next hstatic =>
      obtain ⟨j, hj, rfl⟩ := Option.map_eq_some_iff.mp hentry
      obtain ⟨z, hz⟩ := isFirst_of_findNamed? hl hj
      obtain rfl : z = x := Option.some.inj (hz.symbol.symm.trans hx)
      have hstatic' : y.isStatic = true := by
        rw [isStaticMember, hc, Option.bind_some, hy] at hstatic
        exact hstatic
      refine .entry hz ⟨(hget _).trans hy, hname, hfn, fun k hk w hw => ?_⟩ hstatic' hpermits
      exact hfirst k hk w ((hget k).symm.trans hw)
    · cases hentry
  · cases h
    rw [hget, hy] at hx
    cases hx
    exact .member hpermits

/-- Whatever a name stands for, the code may find it. -/
theorem Binds.finds (hl : v.session.Listed) (h : v.Binds r) (hx : v.session.symbol? r = some x) :
    v.session.Finds v.frame.scope.classScope x r := by
  cases h with
  | plain name h =>
    rcases resolve_found h with (hp | ⟨block, _, hb⟩) | ⟨cls, -, hc⟩
    · exact finds_of_inProcedure? hp hx
    · exact finds_of_inBlock? hb hx
    · exact finds_of_inClass hl hc hx
  | member cls name h => exact finds_of_inClass hl h hx

end Lowering.Sight

/-! ## The law of variables -/

/-- Instructions that address a variable are emitted for one that the code finds. -/
def memberLaw : Law where
  allows ctx s i := (∀ o ∈ i.operands, o.isVariable = false) ∨
    ∃ r x, s.symbol? r = some x ∧ i.Accesses x ∧ s.Finds ctx x r
  widens hst := by
    rintro (hno | ⟨r, x, hx, ha, hf⟩)
    · exact .inl hno
    · exact .inr ⟨r, x, hst.symbols r x hx, ha, hf.widens hst⟩
  patch {ctx s i j target} hp := by
    rintro (hno | ⟨r, x, _, ha, _⟩)
    · refine .inl fun o ho => ?_
      rcases Instruction.operands_of_patch hp ho with ho | rfl
      · exact hno o ho
      · rfl
    · have hjump := isJump_of_patch hp
      rcases ha.opcode with hop | hop | hop | hop <;> rw [hop] at hjump <;> cases hjump
  neutral hn := by
    refine .inl fun o ho => ?_
    have hand := Bool.and_eq_true_iff.mp (hn o ho)
    exact (Bool.not_eq_true' _).mp hand.1
  declared hx hplain ha := .inr ⟨_, _, hx, ha, .plain hplain⟩
  access hr _ hb hx ha := .inr ⟨_, _, hx, ha, hb.finds hr.listed hx⟩
  call _ _ _ hcalls := by
    obtain ⟨debug, rfl⟩ := hcalls
    refine .inl fun o ho => ?_
    simp only [Instruction.ternary, Instruction.operands, Option.toList_some, List.cons_append,
      List.nil_append, List.mem_cons, List.not_mem_nil, or_false] at ho
    rcases ho with rfl | rfl | rfl <;> rfl

/-- An emitted instruction that addresses a variable reads or stores one that its code may use. -/
theorem Emits.mayUse {s : Session} {ctx : Option Nat} {i : Instruction} (h : Emits s ctx i) {o : Operand}
    (ho : o ∈ i.operands) (hvariable : o.isVariable = true) :
    ∃ r x, s.symbol? r = some x ∧ i.Accesses x ∧ o = .ofSymbol x ∧ s.MayUse ctx x r := by
  rcases h.lawful memberLaw with hno | ⟨r, x, hx, ha, hf⟩
  · rw [hno o ho] at hvariable
    cases hvariable
  · have hreached := h.used.reached
    exact ⟨r, x, hx, ha, ha.operand ho hvariable, hf.mayUse hreached.mirrored hreached.coherent⟩

/-- Whatever a name stands for in the course of lowering, the code may use. -/
theorem Working.mayUse {f : Frame} {s : Session} (h : Working f s) {blocks : List Nat} {r : SymbolRef}
    {x : Symbol} (hb : Sight.Binds ⟨s, f, blocks⟩ r) (hx : s.symbol? r = some x) :
    s.MayUse f.scope.classScope x r :=
  (hb.finds h.listed hx).mayUse h.moment.mirrored h.moment.coherent.1

/-- Member variables respect access. Whatever a name stands for in the course of lowering, be it a plain name
or one behind a dot, and whatever variable an emitted instruction addresses, it is no member; or it is a
member that is public, or private and the code is of its class, or protected and the code is of its class or
of one that derives from it; or it is the entry of such a static member. -/
theorem members_respect_access :
    (∀ (f : Frame) (s : Session) (blocks : List Nat) (r : SymbolRef) (x : Symbol), Working f s →
      Sight.Binds ⟨s, f, blocks⟩ r → s.symbol? r = some x → s.MayUse f.scope.classScope x r) ∧
    ∀ (s : Session) (ctx : Option Nat) (i : Instruction) (o : Operand), Emits s ctx i →
      o ∈ i.operands → o.isVariable = true →
        ∃ r x, s.symbol? r = some x ∧ i.Accesses x ∧ o = .ofSymbol x ∧ s.MayUse ctx x r :=
  ⟨fun _ _ _ _ _ h hb hx => h.mayUse hb hx, fun _ _ _ _ h ho hvariable => h.mayUse ho hvariable⟩

/-- A method reads a private static member of its class, and so may code that is watched there. -/
theorem private_static_respects_access :
    let member : Variable :=
      { name := "n", type := .var, value := none, isStatic := true, access := .isPrivate
        region := .stack, span := .nil }
    let method : Function :=
      { name := "f", params := [], returns := .var
        body := [.ret (some (.identifier (.plain "n" .nil))) .nil], attributes := []
        isStatic := false, isConstructor := false, access := .isPublic, span := .nil }
    let cls : Node := .classDecl
      { name := "C", base := none, members := [member], methods := [method], attributes := []
        span := .nil }
    let s := (Session.compile (.new {}) [cls] .associative).2
    let i : Instruction := .ternary .push (.staticVar 0) (.cls (some 12)) (.arrayDim 0)
    (∃ b x, s.block? 1 = some b ∧ s.symbol? ⟨.block 0, 0⟩ = some x ∧ x.access = .isPrivate ∧
      Sight.Binds ⟨{ s with isWatching := true }, s.watchSite 1 b, [1, 0]⟩ ⟨.block 0, 0⟩ ∧
      Session.MayUse { s with isWatching := true } (s.watchSite 1 b).scope.classScope x ⟨.block 0, 0⟩) ∧
    Emits s (some 12) i ∧
      ∃ r x, s.symbol? r = some x ∧ i.Accesses x ∧ Operand.staticVar 0 = .ofSymbol x ∧
        s.MayUse (some 12) x r := by
  intro member method cls s i
  have hused : s.Used := .compile _ .associative (.new {})
  have hcode : ∃ b, s.block? 1 = some b ∧ b.procedure.bind ProcRef.classScope = some 12 ∧ i ∈ b.code ∧
      Sight.resolve ⟨{ s with isWatching := true }, s.watchSite 1 b, [1, 0]⟩ "n" =
        .found ⟨.block 0, 0⟩ := by
    refine ⟨(s.block? 1).getD default, ?_, ?_, ?_, ?_⟩ <;> decide +kernel
  have hsymbol : ∃ x, s.symbol? ⟨.block 0, 0⟩ = some x ∧ x.access = .isPrivate := by
    refine ⟨(s.symbol? ⟨.block 0, 0⟩).getD default, ?_, ?_⟩ <;> decide +kernel
  obtain ⟨b, hb, hscope, hi, hresolve⟩ := hcode
  obtain ⟨x, hx, haccess⟩ := hsymbol
  clear_value s
  have hemits : Emits s (some 12) i := by
    rw [← hscope]
    exact .block hused hb hi
  have hworking : Working (s.watchSite 1 b) { s with isWatching := true } :=
    .watch hused hb (.here (.refl (fun _ => True) _ _))
  refine ⟨⟨b, x, hb, hx, haccess, .plain "n" hresolve, ?_⟩, hemits, ?_⟩
  · exact members_respect_access.1 _ _ [1, 0] _ x hworking (.plain "n" hresolve) hx
  · exact members_respect_access.2 s _ i (.staticVar 0) hemits (List.mem_cons_self ..) rfl

end Diglot
