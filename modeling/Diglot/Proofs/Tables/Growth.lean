import Diglot.Proofs.Tables.Invariant

/-! # Tables only grow

Lowering adds blocks, classes, symbols and procedures, and takes none away (`Evolves.grows`). What a
reference pointed to before, it points to afterwards: to the same symbol, and to a procedure with the
same parameters.
-/

set_option autoImplicit false

namespace Diglot

open Lowering

theorem SymbolTable.get?_append_of_some {t : SymbolTable} {i : Nat} {x : Symbol}
    (h : t.get? i = some x) (y : Symbol) : (t.append y).get? i = some x := by
  rw [get?_append_of_lt y (Array.getElem?_eq_some_iff.mp h).1, h]

namespace Session

/-- Whatever the first session has, the second one has as well. -/
structure Grows (s t : Session) : Prop where
  keeps : s.Keeps t
  classes : ∀ cls, (s.classes.get? cls).isSome → (t.classes.get? cls).isSome
  symbols : ∀ r x, s.symbol? r = some x → t.symbol? r = some x
  procedures : ∀ r p, s.procedure? r = some p → ∃ q, t.procedure? r = some q ∧ q.args = p.args

theorem Grows.refl (s : Session) : s.Grows s :=
  ⟨.refl s, fun _ h => h, fun _ _ h => h, fun _ p h => ⟨p, h, rfl⟩⟩

theorem Grows.trans {s t u : Session} (h : s.Grows t) (h' : t.Grows u) : s.Grows u := by
  refine ⟨h.keeps.trans h'.keeps, fun cls hc => h'.classes cls (h.classes cls hc),
    fun r x hx => h'.symbols r x (h.symbols r x hx), fun r p hp => ?_⟩
  obtain ⟨q, hq, hargs⟩ := h.procedures r p hp
  obtain ⟨q', hq', hargs'⟩ := h'.procedures r q hq
  exact ⟨q', hq', hargs'.trans hargs⟩

/-- Tables that are the same have grown by nothing. -/
theorem grows_of_tables {s t : Session} (hc : t.classes = s.classes)
    (hp : t.procedures = s.procedures) (hh : t.header? = s.header?) : s.Grows t := by
  refine ⟨fun id h hs => ⟨h, by rw [hh, hs], rfl⟩, by rw [hc]; exact fun _ h => h, ?_, ?_⟩
  · intro ⟨owner, i⟩ x hx
    cases owner with
    | block id => rwa [symbol?_block, hh, ← symbol?_block]
    | cls id =>
      unfold symbol? at hx ⊢
      rwa [hc]
  · rw [procedure?_congr hc hp]
    exact fun _ p h => ⟨p, h, rfl⟩

theorem SameNames.grows {s t : Session} (h : s.SameNames t) : s.Grows t :=
  grows_of_tables h.classes h.procedures h.headers

/-! ## Declarations -/

theorem grows_enterLocal (s : Session) (id : Nat) (x : Symbol) : s.Grows (s.enterLocal id x) := by
  refine ⟨keeps_enterLocal s id x, fun _ h => h, ?_, fun _ p h => ⟨p, h, rfl⟩⟩
  intro ⟨owner, i⟩ y hy
  cases owner with
  | cls cls => exact hy
  | block other =>
    rw [symbol?_block] at hy ⊢
    unfold enterLocal
    rw [header?_modifyBlock_eq (k := fun h => { h with symbols := h.symbols.append x })
      (fun _ => rfl)]
    split
    · obtain ⟨hd, hs, hy⟩ := Option.bind_eq_some_iff.mp hy
      rw [hs]
      exact SymbolTable.get?_append_of_some hy x
    · exact hy

theorem grows_appendSymbol (s : Session) (cls : Nat) (x : Symbol) :
    s.Grows { s with classes := s.classes.appendSymbol cls x } := by
  refine ⟨.refl s, ?_, ?_, ?_⟩
  · intro other h
    dsimp only [ClassTable.appendSymbol]
    rw [ClassTable.get?_modify]
    split
    · rwa [Option.isSome_map]
    · exact h
  · intro ⟨owner, i⟩ y hy
    cases owner with
    | block id => exact hy
    | cls other =>
      unfold symbol? at hy ⊢
      dsimp only [ClassTable.appendSymbol] at hy ⊢
      rw [ClassTable.get?_modify]
      split
      · obtain ⟨c, hc, hy⟩ := Option.bind_eq_some_iff.mp hy
        rw [hc]
        exact SymbolTable.get?_append_of_some hy x
      · exact hy
  · have hproc := procedure?_modifyClass (g := fun c => { c with symbols := c.symbols.append x })
      (fun _ => rfl) s cls
    dsimp only [ClassTable.appendSymbol]
    rw [hproc]
    exact fun _ p h => ⟨p, h, rfl⟩

theorem grows_declare (s : Session) (f : Frame) (d : Declaration) : s.Grows (s.declare f d) := by
  have hcounters (counters : Counters) : s.Grows { s with counters } :=
    grows_of_tables rfl rfl rfl
  obtain ⟨cls, counters, _, _, _, _, heq⟩ | ⟨counters, _, _, heq⟩ := s.declare_cases f d
  · rw [heq]
    have hclass := (hcounters counters).trans
      (grows_appendSymbol { s with counters } cls (s.declared f d))
    unfold Session.enterMember
    split
    · exact hclass.trans (grows_enterLocal _ 0 { s.declared f d with block := 0 })
    · exact hclass
  · rw [heq]
    exact (hcounters counters).trans (grows_enterLocal _ f.block (s.declared f d))

/-! ## Procedures -/

theorem symbol?_modifyProcedure (s : Session) (r : ProcRef) (g : Procedure → Procedure) :
    (s.modifyProcedure r g).symbol? = s.symbol? := by
  funext ⟨owner, i⟩
  unfold modifyProcedure
  split
  · rfl
  · cases owner with
    | block id => rfl
    | cls cls =>
      unfold symbol?
      dsimp only
      rw [ClassTable.get?_modify]
      split
      · cases s.classes.get? cls <;> rfl
      · rfl

theorem grows_modifyProcedure (s : Session) (r : ProcRef) {g : Procedure → Procedure}
    (hg : ∀ p, (g p).args = p.args) : s.Grows (s.modifyProcedure r g) := by
  refine ⟨?_, ?_, ?_, ?_⟩
  · intro id h hs
    refine ⟨h, ?_, rfl⟩
    unfold modifyProcedure
    split <;> exact hs
  · intro cls h
    unfold modifyProcedure
    split
    · exact h
    · rw [ClassTable.get?_modify]
      split
      · rwa [Option.isSome_map]
      · exact h
  · rw [symbol?_modifyProcedure]
    exact fun _ _ h => h
  · intro q p hp
    rw [procedure?_modifyProcedure]
    split
    · exact ⟨g p, by rw [hp, Option.map_some], hg p⟩
    · exact ⟨p, hp, rfl⟩

theorem symbol?_register (s : Session) (scope : Scope) (p : Procedure) :
    (s.register scope p).symbol? = s.symbol? := by
  funext ⟨owner, i⟩
  unfold register
  split
  · cases owner with
    | block id => rfl
    | cls other =>
      unfold symbol?
      dsimp only [ClassTable.appendProcedure]
      rw [ClassTable.get?_modify]
      split
      · cases s.classes.get? other <;> rfl
      · rfl
  · rfl

theorem grows_register (s : Session) (scope : Scope) (p : Procedure) :
    s.Grows (s.register scope p) := by
  refine ⟨?_, ?_, ?_, fun r q hq => ⟨q, procedure?_register_of_some hq scope p, rfl⟩⟩
  · intro id h hs
    refine ⟨h, ?_, rfl⟩
    unfold register
    split <;> exact hs
  · intro cls h
    unfold register
    split
    · dsimp only [ClassTable.appendProcedure]
      rw [ClassTable.get?_modify]
      split
      · rwa [Option.isSome_map]
      · exact h
    · exact h
  · rw [symbol?_register]
    exact fun _ _ h => h

/-! ## Blocks and classes -/

/-- A block that is added is the last one; the others are as before. -/
theorem grows_of_new {s t : Session} {new : Header}
    (hnew : ∀ id, t.header? id = if id = s.blocks.size then some new else s.header? id)
    (hc : t.classes = s.classes) (hp : t.procedures = s.procedures) : s.Grows t := by
  refine ⟨keeps_of_new hnew, by rw [hc]; exact fun _ h => h, ?_, ?_⟩
  · intro ⟨owner, i⟩ x hx
    cases owner with
    | block id =>
      rw [symbol?_block] at hx ⊢
      obtain ⟨hd, hs, hx⟩ := Option.bind_eq_some_iff.mp hx
      have hlt := lt_of_header? hs
      rw [hnew, if_neg (by omega), hs]
      exact hx
    | cls id =>
      unfold symbol? at hx ⊢
      rwa [hc]
  · rw [procedure?_congr hc hp]
    exact fun _ p h => ⟨p, h, rfl⟩

theorem grows_openBlock (s : Session) (f : Frame) (dialect : Dialect) :
    s.Grows (s.openBlock f dialect) :=
  grows_of_new (header?_openBlock s f dialect) rfl rfl

theorem grows_openProcedure (s : Session) (f : Frame) (p : Procedure) (message : String) :
    s.Grows (s.openProcedure f p message) := by
  have hregister := s.grows_register f.scope p
  have hblock := grows_of_new
    (header?_addBlock_procedure (s.register f.scope p) .function f.dialect (some f.block)
      (some (s.nextProcedure f.scope))) rfl rfl
  rw [blocks_register] at hblock
  refine ((hregister.trans hblock).trans (grows_modifyProcedure _ (s.nextProcedure f.scope) ?_)).trans
    (grows_of_tables rfl rfl rfl)
  exact fun _ => rfl

theorem grows_appendClass {s : Session} {c : Class} {classes : ClassTable}
    (h : s.classes.append? c = some classes) : s.Grows { s with classes } := by
  refine ⟨fun id hd hs => ⟨hd, hs, rfl⟩, ?_, ?_, ?_⟩
  · intro cls hc
    obtain ⟨d, hd⟩ := Option.isSome_iff_exists.mp hc
    exact Option.isSome_iff_exists.mpr ⟨d, get?_append?_of_some h hd⟩
  · intro ⟨owner, i⟩ x hx
    cases owner with
    | block id => exact hx
    | cls cls =>
      obtain ⟨d, hd, hx⟩ := Option.bind_eq_some_iff.mp hx
      unfold symbol?
      dsimp only
      rw [get?_append?_of_some h hd]
      exact hx
  · intro ⟨owner, i⟩ p hp
    cases owner with
    | none => exact ⟨p, hp, rfl⟩
    | some cls =>
      rw [procedure?_some] at hp ⊢
      obtain ⟨d, hd, hp⟩ := Option.bind_eq_some_iff.mp hp
      exact ⟨p, by rw [get?_append?_of_some h hd]; exact hp, rfl⟩

end Session

/-! ## Along a run -/

namespace Lowering

variable {K : OpCode → Prop} {f g : Frame} {s t : Session}

theorem Change.grows (h : Change K f s t) : s.Grows t := by
  rcases h.sameNames_or_declare with h | ⟨d, rfl⟩
  · exact h.grows
  · exact s.grows_declare f d

theorem Opens.grows {close : Session → Session → Prop} (h : Opens f s g t close) : s.Grows t := by
  cases h with
  | block dialect => exact s.grows_openBlock f dialect
  | procedure p message => exact s.grows_openProcedure f p message
  | cls c classes _ _ _ happ => exact Session.grows_appendClass happ

theorem Opens.grows_close {close : Session → Session → Prop} {u v : Session}
    (h : Opens f s g t close) (hv : close u v) : u.Grows v := by
  cases h with
  | block dialect =>
    cases hv
    exact .refl u
  | cls c classes =>
    cases hv
    exact .refl u
  | procedure p message =>
    have hlocals : u.Grows (u.setLocals s.counters.locals) := Session.grows_of_tables rfl rfl rfl
    obtain rfl | ⟨entry, rfl⟩ := hv
    · exact hlocals
    · refine hlocals.trans (Session.grows_modifyProcedure _ _ ?_)
      exact fun _ => rfl

theorem Evolves.grows (h : Evolves K f s t) : s.Grows t := by
  induction h with
  | refl => exact .refl _
  | step _ hc ih => exact ih.trans hc.grows
  | inner _ ho _ hw ih ihg => exact ((ih.trans ho.grows).trans ihg).trans (ho.grows_close hw)

end Lowering

end Diglot
