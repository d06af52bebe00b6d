import Diglot.Proofs.Tables.Invariant

/-! # Whose locals a name can stand for

A name never stands for a parameter or variable of a procedure that is not around the code. Of the
procedures around it, only the innermost one should give the code its locals. Lookups compare the
indices of procedures and not their classes, so a function inside of a method of the same index sees
the locals of the method; there is no other exception (`resolve_local`).
-/

set_option autoImplicit false

namespace Diglot

open Lowering

theorem SymbolTable.findNamed?_eq_some {t : SymbolTable} {name : String} {p : Symbol → Bool}
    {i : Nat} (h : t.findNamed? name p = some i) : ∃ x, t.get? i = some x ∧ p x = true := by
  have hp := List.find?_some h
  cases hx : t.get? i with
  | none => simp [hx] at hp
  | some x =>
    rw [hx] at hp
    exact ⟨x, rfl, hp⟩

/-! ## The blocks around -/

namespace Session

theorem mem_enclosingFrom {s : Session} {fuel id : Nat} {blocks : List Nat}
    (h : s.enclosingFrom fuel id = some blocks) : id ∈ blocks := by
  cases fuel with
  | zero => cases h
  | succ fuel =>
    unfold enclosingFrom at h
    split at h
    · cases h
    · split at h
      · cases h
        exact List.mem_singleton_self id
      · obtain ⟨rest, _, rfl⟩ := Option.map_eq_some_iff.mp h
        exact List.mem_cons_self

/-- If a block around belongs to a procedure, the code belongs to one as well: to the same, or to a
function. -/
theorem Coherent.procedure_around {s : Session} (hs : s.Coherent) {fuel id : Nat}
    {blocks : List Nat} (h : s.enclosingFrom fuel id = some blocks) {hd : Header}
    (hid : s.header? id = some hd) {b : Nat} (hb : b ∈ blocks) {c : Header} {q : ProcRef}
    (hc : s.header? b = some c) (hq : c.procedure = some q) :
    ∃ p, hd.procedure = some p ∧ (q = p ∨ p.classScope = none) := by
  induction fuel generalizing id blocks hd with
  | zero => cases h
  | succ fuel ih =>
    have hself (heq : b = id) : ∃ p, hd.procedure = some p ∧ (q = p ∨ p.classScope = none) := by
      subst heq
      have hsame : c = hd := Option.some.inj (hc.symm.trans hid)
      exact ⟨q, hsame ▸ hq, .inl rfl⟩
    unfold enclosingFrom at h
    split at h
    · cases h
    · next block hblock =>
      have hheader : block.header = hd :=
        Option.some.inj ((header?_of_block? hblock).symm.trans hid)
      split at h
      · cases h
        exact hself (List.mem_singleton.mp hb)
      · next parent hparent =>
        obtain ⟨rest, hrest, rfl⟩ := Option.map_eq_some_iff.mp h
        rcases List.mem_cons.mp hb with heq | hb
        · exact hself heq
        have hparent' : hd.parent = some parent := by
          rw [← hheader]
          exact hparent
        obtain ⟨outer, houter, hsur⟩ := hs.around id hd parent hid hparent'
        obtain ⟨p, hp, hqp⟩ := ih hrest houter hb
        -- The procedure around the parent is that of the parent or a function's outside.
        rcases hsur with hsame | hnone | ⟨r, hr, hfree⟩
        · exact ⟨p, hsame ▸ hp, hqp⟩
        · rw [hnone] at hp
          cases hp
        · exact ⟨r, hr, .inr hfree⟩

end Session

/-! ## What a lookup can find -/

namespace Lowering.Sight

variable {v : Sight} {name : String} {r : SymbolRef}

/-- An entry that is found in the table of a block is a symbol of the session. -/
theorem symbol?_of_findNamed? {block i : Nat} {p : Symbol → Bool}
    (h : (v.symbolsOf block).findNamed? name p = some i) :
    ∃ x, v.session.symbol? ⟨.block block, i⟩ = some x ∧ p x = true := by
  obtain ⟨x, hx, hp⟩ := SymbolTable.findNamed?_eq_some h
  refine ⟨x, ?_, hp⟩
  rw [Session.symbol?_block]
  rw [symbolsOf_eq] at hx
  cases hh : v.session.header? block with
  | none => simp [hh, SymbolTable.get?] at hx
  | some hd =>
    rw [hh] at hx
    exact hx

theorem inBlock?_eq_some {block : Nat} (h : v.inBlock? name block = some r) :
    ∃ i x, r = ⟨.block block, i⟩ ∧ v.session.symbol? r = some x ∧ v.isVisible x = true := by
  obtain ⟨i, hi, rfl⟩ := Option.map_eq_some_iff.mp h
  obtain ⟨x, hx, hvis⟩ := symbol?_of_findNamed? hi
  exact ⟨i, x, rfl, hx, hvis⟩

theorem inProcedure?_eq_some (h : v.inProcedure? name = some r) :
    ∃ body i x, v.frame.scope.body = some body ∧ r = ⟨.block body, i⟩ ∧
      v.session.symbol? r = some x ∧ x.function = v.frame.scope.function := by
  unfold inProcedure? at h
  split at h
  · next fn body hfn hbody =>
    obtain ⟨i, hi, rfl⟩ := Option.map_eq_some_iff.mp h
    obtain ⟨x, hx, heq⟩ := symbol?_of_findNamed? hi
    exact ⟨body, i, x, hbody, rfl, hx, (eq_of_beq heq).trans hfn.symm⟩
  · cases h

/-- A member is found in the table of a class or, if it is static, in that of the first block. -/
theorem inClass_found {cls : Nat} (h : v.inClass cls name = .found r) :
    (∃ owner i, r = ⟨.cls owner, i⟩) ∨ ∃ i, r = ⟨.block 0, i⟩ := by
  unfold inClass at h
  split at h
  · cases h
  · cases h
  · next m _ =>
    split at h
    · next r' hr' =>
      cases h
      split at hr'
      · obtain ⟨i, _, rfl⟩ := Option.map_eq_some_iff.mp hr'
        exact .inr ⟨i, rfl⟩
      · cases hr'
    · cases h
      exact .inl ⟨m.owner, m.index, rfl⟩

theorem inBlocks_found (h : v.inBlocks name = .found r) :
    v.inProcedure? name = some r ∨ ∃ b ∈ v.blocks, v.inBlock? name b = some r := by
  unfold inBlocks at h
  split at h
  · next r' hr' =>
    cases h
    exact .inl hr'
  · split at h
    · next r' hr' =>
      cases h
      exact .inr (List.exists_of_findSome?_eq_some hr')
    · cases h

theorem inScope_found (h : v.inScope name = .found r) :
    (v.inProcedure? name = some r ∨ ∃ b ∈ v.blocks, v.inBlock? name b = some r) ∨
      ∃ cls, v.frame.scope.classScope = some cls ∧ v.inClass cls name = .found r := by
  unfold inScope at h
  split at h
  · exact .inl (inBlocks_found h)
  · next cls hcls =>
    split at h
    · exact .inl (inBlocks_found h)
    · exact .inr ⟨cls, hcls, h⟩

/-- A name stands for an entry of the procedure's body, of a block around, or of the class. -/
theorem resolve_found (h : v.resolve name = .found r) :
    (v.inProcedure? name = some r ∨
      ∃ b, (b = v.frame.block ∨ b ∈ v.blocks) ∧ v.inBlock? name b = some r) ∨
      ∃ cls, v.frame.scope.classScope = some cls ∧ v.inClass cls name = .found r := by
  have hscope (h : v.inScope name = .found r) :
      (v.inProcedure? name = some r ∨
        ∃ b, (b = v.frame.block ∨ b ∈ v.blocks) ∧ v.inBlock? name b = some r) ∨
        ∃ cls, v.frame.scope.classScope = some cls ∧ v.inClass cls name = .found r := by
    rcases inScope_found h with (hp | ⟨b, hb, hr⟩) | hc
    · exact .inl (.inl hp)
    · exact .inl (.inr ⟨b, .inr hb, hr⟩)
    · exact .inr hc
  unfold resolve at h
  split at h
  · next r' hr' =>
    cases h
    split at hr'
    · exact .inl (.inr ⟨v.frame.block, .inl rfl, hr'⟩)
    · cases hr'
  · split at h
    · cases h
    · split at h
      · next r' hr' =>
        cases h
        split at hr'
        · exact .inl (.inl hr')
        · cases hr'
      · exact hscope h

/-- A local that is in sight has the index of the current procedure. -/
theorem visible_local {x : Symbol} {fn : Nat} (h : v.isVisible x = true)
    (hx : x.function = some fn) :
    ∃ p, v.frame.scope.procedure = some p ∧ p.index = fn := by
  unfold isVisible at h
  rw [hx] at h
  simp only [Bool.and_eq_true, Option.isNone_some, Bool.false_or, beq_iff_eq] at h
  exact Option.map_eq_some_iff.mp h.2.symm

end Lowering.Sight

/-! ## Locals -/

/-- The table of a local belongs to a procedure of its index. -/
theorem Session.Coherent.owner {s : Session} (h : s.Coherent) {b i fn : Nat} {x : Symbol}
    (hx : s.symbol? ⟨.block b, i⟩ = some x) (hfn : x.function = some fn) :
    ∃ c q, s.header? b = some c ∧ c.procedure = some q ∧ q.index = fn := by
  rw [Session.symbol?_block] at hx
  obtain ⟨c, hc, hcx⟩ := Option.bind_eq_some_iff.mp hx
  have hindex := (h.entries b c hc i x hcx).2
  rw [hfn] at hindex
  obtain ⟨q, hq, hqfn⟩ := Option.map_eq_some_iff.mp hindex.symm
  exact ⟨c, q, hc, hq, hqfn⟩

/-- If a name stands for a local, code belongs to a procedure of the same index: to the one that owns
the local, or to a function. -/
theorem Lowering.Sight.resolve_owner {v : Sight} (hco : v.session.Coherent) (hpl : v.frame.Placed v.session)
    (hblocks : v.session.enclosing? v.frame.block = some v.blocks) {name : String} {b i fn : Nat}
    {x : Symbol} (hr : v.resolve name = .found ⟨.block b, i⟩)
    (hx : v.session.symbol? ⟨.block b, i⟩ = some x) (hfn : x.function = some fn) {c : Header}
    {q : ProcRef} (hc : v.session.header? b = some c) (hq : c.procedure = some q)
    (hqfn : q.index = fn) :
    ∃ p, v.frame.scope.procedure = some p ∧ p.index = fn ∧ (q = p ∨ p.classScope = none) := by
  rcases Sight.resolve_found hr with (hproc | ⟨b', hb', hin⟩) | ⟨cls, -, hcls⟩
  · -- The table is that of the body of the current procedure.
    obtain ⟨body, i', x', hbody, hr', _, _⟩ := Sight.inProcedure?_eq_some hproc
    cases hr'
    obtain ⟨hd, hs, hd'⟩ := hpl.body b hbody
    have hsame : hd = c := Option.some.inj (hs.symm.trans hc)
    exact ⟨q, hd'.symm.trans (hsame ▸ hq), hqfn, .inl rfl⟩
  · -- The table is that of a block around, and the lookup has compared the indices.
    obtain ⟨i', x', hr', hx', hvis⟩ := Sight.inBlock?_eq_some hin
    cases hr'
    rw [hx] at hx'
    cases hx'
    obtain ⟨p, hp, hpfn⟩ := Sight.visible_local hvis hfn
    have hmem : b ∈ v.blocks := by
      rcases hb' with heq | hb'
      · rw [heq]
        exact Session.mem_enclosingFrom hblocks
      · exact hb'
    obtain ⟨hd, hs, hd'⟩ := hpl.block
    obtain ⟨p', hp', hqp⟩ := hco.procedure_around hblocks hs hmem hc hq
    have hsame : p' = p := Option.some.inj ((hp'.symm.trans hd').trans hp)
    exact ⟨p, hp, hpfn, hsame ▸ hqp⟩
  · -- Members are no locals: the first block belongs to no procedure.
    rcases Sight.inClass_found hcls with ⟨owner, i', hr'⟩ | ⟨i', hr'⟩
    · cases hr'
    · cases hr'
      rw [hco.first c hc] at hq
      cases hq

/-- A procedure that has the index of a function is that function unless it is a method. -/
theorem ProcRef.eq_iff_not_method {p q : ProcRef} (hindex : q.index = p.index)
    (h : q = p ∨ p.classScope = none) :
    q = p ↔ ¬ (p.classScope = none ∧ q.classScope.isSome) := by
  constructor
  · rintro rfl ⟨hnone, hsome⟩
    rw [hnone] at hsome
    cases hsome
  · intro hnot
    rcases h with rfl | hnone
    · rfl
    · have hqnone : q.classScope = none := by
        cases hqc : q.classScope with
        | none => rfl
        | some cls => exact absurd ⟨hnone, by rw [hqc]; rfl⟩ hnot
      obtain ⟨pc, pi⟩ := p
      obtain ⟨qc, qi⟩ := q
      cases hnone
      cases hqnone
      cases hindex
      rfl

/-- A local that a name stands for belongs to a procedure of the same index as the current one, and to
the current one itself unless that is a function and the other one is a method. -/
theorem resolve_local {f : Frame} {s : State} {v : Sight} (hm : Moment f.site s.session)
    (hv : sight f s = .ok v s) {name : String} {b i fn : Nat} {x : Symbol}
    (hr : v.resolve name = .found ⟨.block b, i⟩)
    (hx : s.session.symbol? ⟨.block b, i⟩ = some x) (hfn : x.function = some fn) :
    ∃ p q block, f.scope.procedure = some p ∧ s.session.block? b = some block ∧
      block.procedure = some q ∧ p.index = fn ∧ q.index = fn ∧
      (q = p ↔ ¬ (p.classScope = none ∧ q.classScope.isSome)) := by
  obtain ⟨hco, hpl⟩ := hm.coherent
  obtain ⟨_, heq, hblocks, _⟩ := sight_eq_ok.mp hv
  obtain ⟨session, frame, blocks⟩ := v
  cases heq
  obtain ⟨c, q, hc, hq, hqfn⟩ := hco.owner hx hfn
  obtain ⟨p, hp, hpfn, hqp⟩ := Sight.resolve_owner hco ⟨hpl.block, hpl.body⟩ hblocks hr hx hfn hc
    hq hqfn
  obtain ⟨block, hblock, rfl⟩ := Session.header?_eq_some.mp hc
  refine ⟨p, q, block, hp, hblock, hq, hpfn, hqfn, ?_⟩
  exact ProcRef.eq_iff_not_method (hqfn.trans hpfn.symm) hqp

def echoUnit : List Node :=
  [.function (generated "f" [⟨"a", .var, none, .nil⟩] [.ret (some (bareName "a")) .nil])]

def echoSession : Session := ((Session.new {}).compile echoUnit .associative).2

def echoFrame : Frame :=
  { block := 1, scope := { procedure := some ⟨none, 0⟩, body := some 1 }, dialect := .associative }

/-- In the body of `f`, the name `a` stands for the parameter of `f` itself. -/
theorem echo_resolve_local :
    let s : Session := { echoSession with isWatching := true }
    ∃ p q block, echoFrame.scope.procedure = some p ∧ s.block? 1 = some block ∧
      block.procedure = some q ∧ p.index = 0 ∧ q.index = 0 ∧
      (q = p ↔ ¬ (p.classScope = none ∧ q.classScope.isSome)) := by
  have hreached : echoSession.Reached := Session.Reached.ofCompiled (.new {}) (by decide +kernel)
  have hmoment : Moment echoFrame { echoSession with isWatching := true } :=
    .ofWatch hreached 1 (by decide +kernel)
  have hblocks : Session.enclosing? { echoSession with isWatching := true } 1 = some [1, 0] := by
    decide +kernel
  have hbody : (Session.block? { echoSession with isWatching := true } 1).isSome = true := by
    decide +kernel
  have hname : Sight.resolve ⟨{ echoSession with isWatching := true }, echoFrame, [1, 0]⟩ "a" =
      .found ⟨.block 1, 0⟩ := by decide +kernel
  have hsymbol : (Session.symbol? { echoSession with isWatching := true } ⟨.block 1, 0⟩).map
      Symbol.function = some (some 0) := by decide +kernel
  generalize ({ echoSession with isWatching := true } : Session) = s at *
  obtain ⟨x, hx, hfn⟩ := Option.map_eq_some_iff.mp hsymbol
  have hv : sight echoFrame { session := s } = .ok ⟨s, echoFrame, [1, 0]⟩ { session := s } := by
    refine sight_eq_ok.mpr ⟨rfl, rfl, hblocks, fun body hb => ?_⟩
    cases hb
    exact hbody
  exact resolve_local (f := echoFrame) (s := { session := s }) hmoment hv hname hx hfn

/-- A method with a variable, and in it a function that reads the name of the variable. -/
def nestedUnit : List Node :=
  [.classDecl
    { name := "C", base := none, members := [], attributes := [], span := .nil
      methods := [generated "m" []
        [.assignment (bareName "v") (.literal .int "1" .nil),
          .function (generated "g" [] [.ret (some (bareName "v")) .nil])]] }]

def nestedSession : Session := ((Session.new {}).compile nestedUnit .associative).2

/-- The frame in which the body of the function is lowered. -/
def nestedFrame : Frame :=
  { block := 2, scope := { procedure := some ⟨none, 0⟩, body := some 2 }, dialect := .associative }

/-- The first function of a session sees the variable of the first method of a class around it, and
its code reads that variable. -/
theorem function_sees_method_local :
    (∃ s : Session, Moment nestedFrame s ∧ s.enclosing? 2 = some [2, 1, 0] ∧
      Sight.resolve ⟨s, nestedFrame, [2, 1, 0]⟩ "v" = .found ⟨.block 1, 0⟩ ∧
      (s.symbol? ⟨.block 1, 0⟩).map Symbol.function = some (some 0) ∧
      (s.block? 1).map Block.procedure = some (some ⟨some 12, 0⟩) ∧
      nestedFrame.scope.procedure = some ⟨none, 0⟩) ∧
    ((nestedSession.block? 2).bind fun b => b.code[0]?).map Instruction.operands =
      some [.var 0, .cls none, .arrayDim 0] := by
  have hreached : nestedSession.Reached := Session.Reached.ofCompiled (.new {}) (by decide +kernel)
  have hmoment : Moment nestedFrame { nestedSession with isWatching := true } :=
    .ofWatch hreached 2 (by decide +kernel)
  refine ⟨⟨_, hmoment, ?_, ?_, ?_, ?_, rfl⟩, ?_⟩
  · decide +kernel
  · decide +kernel
  · decide +kernel
  · decide +kernel
  · decide +kernel

end Diglot
