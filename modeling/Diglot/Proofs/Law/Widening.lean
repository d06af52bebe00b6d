import Diglot.Proofs.Course.Statement
import Diglot.Proofs.Globals.Table
import Diglot.Proofs.Slots.Members
import Diglot.Proofs.Tree.Session

/-! # Sessions that widen

Lowering never takes back what a session knows of its classes, symbols and procedures.

* `Session.Widens`: blocks keep their procedures, classes their base classes, symbols their entries, and
  procedures all but what is known of their bodies.
* `Evolves.widens`, `Course.widens`: in the course of a run a session widens, however the run ends.
-/

set_option autoImplicit false

namespace Diglot

open Lowering

namespace Session

/-- All tables of symbols list the positions of their names. -/
structure Listed (s : Session) : Prop where
  blocks : s.Indexed
  classes : ∀ cls c, s.classes.get? cls = some c → c.symbols.Indexed

theorem Listed.congr {s t : Session} (h : s.Listed) (hc : t.classes = s.classes)
    (hh : t.header? = s.header?) : t.Listed := by
  refine ⟨fun id hd hs => h.blocks id hd (hh ▸ hs), ?_⟩
  rw [hc]
  exact h.classes

/-- Changing a class but for its symbols leaves the tables listed. -/
theorem Listed.modifyClass {s t : Session} (h : s.Listed) (cls : Nat) {k : Class → Class}
    (hc : t.classes = s.classes.modify cls k)
    (hk : ∀ c : Class, c.symbols.Indexed → (k c).symbols.Indexed) (hh : s.Extends t) : t.Listed := by
  refine ⟨hh.indexed h.blocks, fun other c hother => ?_⟩
  rw [hc, ClassTable.get?_modify] at hother
  split at hother
  · obtain ⟨d, hd, rfl⟩ := Option.map_eq_some_iff.mp hother
    exact hk d (h.classes other d hd)
  · exact h.classes other c hother

/-- Blocks keep their procedures, classes their base classes, symbols their entries, and procedures all
but what is known of their bodies. -/
structure Widens (s t : Session) : Prop where
  keeps : s.Keeps t
  size : s.classes.size ≤ t.classes.size
  base : ∀ cls b, s.base? cls = some b → t.base? cls = some b
  symbols : ∀ r x, s.symbol? r = some x → t.symbol? r = some x
  procedures : ∀ r p, s.procedure? r = some p →
    ∃ block entry locals, t.procedure? r = some { p with block, entry, locals }
  listed : s.Listed → t.Listed

namespace Widens

variable {s t u : Session}

theorem refl (s : Session) : s.Widens s :=
  ⟨.refl s, Nat.le_refl _, fun _ _ h => h, fun _ _ h => h, fun _ p h => ⟨p.block, p.entry, p.locals, h⟩,
    id⟩

theorem trans (h : s.Widens t) (h' : t.Widens u) : s.Widens u := by
  refine ⟨h.keeps.trans h'.keeps, Nat.le_trans h.size h'.size,
    fun cls b hb => h'.base cls b (h.base cls b hb),
    fun r x hx => h'.symbols r x (h.symbols r x hx), fun r p hp => ?_,
    fun hs => h'.listed (h.listed hs)⟩
  obtain ⟨block, entry, locals, hq⟩ := h.procedures r p hp
  obtain ⟨block', entry', locals', hq'⟩ := h'.procedures r _ hq
  exact ⟨block', entry', locals', hq'⟩

/-- A session that grew and kept its procedures and base classes. -/
theorem ofGrows (h : s.Grows t) (hb : s.SameBases t)
    (hp : ∀ r p, s.procedure? r = some p →
      ∃ block entry locals, t.procedure? r = some { p with block, entry, locals })
    (hl : s.Listed → t.Listed) : s.Widens t :=
  ⟨h.keeps, Nat.le_of_eq hb.size.symm, fun cls b => by rw [hb.base?]; exact id, h.symbols, hp, hl⟩

theorem ofTables (hc : t.classes = s.classes) (hp : t.procedures = s.procedures)
    (hh : t.header? = s.header?) : s.Widens t := by
  refine .ofGrows (grows_of_tables hc hp hh) (.ofClasses hc) (fun r p h => ?_)
    fun hs => hs.congr hc hh
  refine ⟨p.block, p.entry, p.locals, ?_⟩
  rw [procedure?_congr hc hp]
  exact h

theorem ofSameNames (h : s.SameNames t) : s.Widens t := .ofTables h.classes h.procedures h.headers

theorem grows (h : s.Widens t) : s.Grows t := by
  refine ⟨h.keeps, fun cls hc => ?_, h.symbols, fun r p hp => ?_⟩
  · have hiff (classes : ClassTable) : (classes.get? cls).isSome ↔ cls < classes.size := by
      simp [ClassTable.get?, ClassTable.size]
    exact (hiff _).mpr (Nat.lt_of_lt_of_le ((hiff _).mp hc) h.size)
  · obtain ⟨block, entry, locals, hq⟩ := h.procedures r p hp
    exact ⟨_, hq, rfl⟩

end Widens

theorem Listed.register {s : Session} (h : s.Listed) (scope : Scope) (p : Procedure) :
    (s.register scope p).Listed := by
  have hheader : (s.register scope p).header? = s.header? := by
    funext id
    simp only [header?, block?, blocks_register]
  unfold Session.register at hheader ⊢
  split at hheader
  · next cls _ =>
    exact h.modifyClass cls rfl (fun _ hc => hc) (extends_of_headers hheader)
  · exact h.congr rfl hheader

theorem Listed.modifyProcedure {s : Session} (h : s.Listed) (r : ProcRef)
    (g : Procedure → Procedure) : (s.modifyProcedure r g).Listed := by
  have hheader := header?_modifyProcedure s r g
  unfold Session.modifyProcedure at hheader ⊢
  split at hheader
  · exact h.congr rfl hheader
  · next cls _ =>
    exact h.modifyClass cls rfl (fun _ hc => hc) (extends_of_headers hheader)

theorem widens_declare (s : Session) (f : Frame) (d : Declaration) : s.Widens (s.declare f d) := by
  have hext := s.extends_declare f d
  refine .ofGrows (s.grows_declare f d) (sameBases_declare s f d) (fun r p hp => ?_) fun hs => ?_
  case refine_2 =>
    obtain ⟨cls, counters, _, _, _, _, heq⟩ | ⟨counters, _, _, heq⟩ := s.declare_cases f d
    · refine hs.modifyClass cls (k := fun c => { c with symbols := c.symbols.append (s.declared f d) }) ?_
        (fun c hc => hc.append _) hext
      rw [heq]
      unfold enterMember
      split <;> rfl
    · refine ⟨hext.indexed hs.blocks, ?_⟩
      rw [heq]
      exact hs.classes
  refine ⟨p.block, p.entry, p.locals, ?_⟩
  obtain ⟨cls, counters, _, _, _, _, heq⟩ | ⟨counters, _, _, heq⟩ := s.declare_cases f d
  · have hclass := procedure?_modifyClass
      (g := fun c => { c with symbols := c.symbols.append (s.declared f d) })
      (fun _ => rfl) { s with counters } cls
    rw [heq]
    unfold enterMember ClassTable.appendSymbol
    split
    · exact (congrFun hclass r).trans hp
    · exact (congrFun hclass r).trans hp
  · rw [heq]
    exact hp

theorem widens_modifyProcedure (s : Session) (r : ProcRef) {g : Procedure → Procedure}
    (hg : ∀ p, ∃ block entry locals, g p = { p with block, entry, locals }) :
    s.Widens (s.modifyProcedure r g) := by
  have hargs (p : Procedure) : (g p).args = p.args := by
    obtain ⟨block, entry, locals, h⟩ := hg p
    rw [h]
  refine .ofGrows (s.grows_modifyProcedure r hargs) (sameBases_modifyProcedure s r g)
    (fun q p hp => ?_) fun hs => hs.modifyProcedure r g
  rw [procedure?_modifyProcedure, hp]
  split
  · obtain ⟨block, entry, locals, h⟩ := hg p
    exact ⟨block, entry, locals, by rw [Option.map_some, h]⟩
  · exact ⟨p.block, p.entry, p.locals, rfl⟩

theorem widens_register (s : Session) (scope : Scope) (p : Procedure) :
    s.Widens (s.register scope p) := by
  refine .ofGrows (s.grows_register scope p) (sameBases_register s scope p) (fun r q hq => ?_)
    fun hs => hs.register scope p
  exact ⟨q.block, q.entry, q.locals, procedure?_register_of_some hq scope p⟩

theorem widens_openBlock (s : Session) (f : Frame) (dialect : Dialect) :
    s.Widens (s.openBlock f dialect) :=
  .ofGrows (s.grows_openBlock f dialect) (.ofClasses rfl)
    (fun _ p hp => ⟨p.block, p.entry, p.locals, hp⟩) fun hs =>
    ⟨(extends_of_new rfl (s.header?_openBlock f dialect)).indexed hs.blocks, hs.classes⟩

theorem widens_openProcedure (s : Session) (f : Frame) (p : Procedure) (message : String) :
    s.Widens (s.openProcedure f p message) := by
  obtain ⟨hc, hp⟩ := tables_openProcedure s f p message
  have hmodified := (s.widens_register f.scope p).trans
    (widens_modifyProcedure _ (s.nextProcedure f.scope)
      (g := fun p => { p with block := some s.blocks.size }) fun p => ⟨_, p.entry, p.locals, rfl⟩)
  refine .ofGrows (s.grows_openProcedure f p message) (sameBases_openProcedure s f p message) ?_
    fun hs => ⟨?_, ?_⟩
  · rw [procedure?_congr hc hp]
    exact hmodified.procedures
  · exact (extends_of_new rfl (s.header?_openProcedure f p message)).indexed hs.blocks
  · rw [hc]
    exact (hmodified.listed hs).classes

theorem widens_appendClass {s : Session} {c : Class} {classes : ClassTable}
    (hc : c.symbols.Indexed) (h : s.classes.append? c = some classes) :
    s.Widens { s with classes } := by
  have hgrows := grows_appendClass h
  refine ⟨hgrows.keeps, ?_, fun cls b hb => ?_, hgrows.symbols, fun r p hp => ?_,
    fun hs => ⟨hs.blocks, fun cls d hd => ?_⟩⟩
  rotate_right
  · rcases get?_append?_cases h hd with hd | rfl
    · exact hs.classes cls d hd
    · exact hc
  · rw [ClassTable.size_append? h]
    exact Nat.le_succ _
  · obtain ⟨d, hd, hbase⟩ := Option.bind_eq_some_iff.mp hb
    exact Option.bind_eq_some_iff.mpr ⟨d, get?_append?_of_some h hd, hbase⟩
  · refine ⟨p.block, p.entry, p.locals, ?_⟩
    obtain ⟨owner, i⟩ := r
    cases owner with
    | none => exact hp
    | some cls =>
      rw [procedure?_some] at hp ⊢
      obtain ⟨d, hd, hp⟩ := Option.bind_eq_some_iff.mp hp
      rw [get?_append?_of_some h hd]
      exact hp

end Session

namespace Lowering

theorem Change.widens {K : OpCode → Prop} {f : Frame} {s t : Session} (h : Change K f s t) :
    s.Widens t := by
  rcases h.sameNames_or_declare with h | ⟨d, rfl⟩
  · exact .ofSameNames h
  · exact s.widens_declare f d

theorem Opens.widens {f g : Frame} {s t : Session} {close : Session → Session → Prop}
    (h : Opens f s g t close) : s.Widens t := by
  cases h with
  | block dialect => exact s.widens_openBlock f dialect
  | procedure p message => exact s.widens_openProcedure f p message
  | cls c classes _ _ hsymbols happ =>
    exact Session.widens_appendClass (hsymbols ▸ SymbolTable.indexed_empty) happ

theorem Opens.widens_close {f g : Frame} {s t u v : Session} {close : Session → Session → Prop}
    (h : Opens f s g t close) (hv : close u v) : u.Widens v := by
  cases h with
  | block dialect =>
    cases hv
    exact .refl u
  | cls c classes =>
    cases hv
    exact .refl u
  | procedure p message =>
    have hlocals : u.Widens (u.setLocals s.counters.locals) := .ofTables rfl rfl rfl
    obtain rfl | ⟨entry, rfl⟩ := hv
    · exact hlocals
    · exact hlocals.trans (Session.widens_modifyProcedure _ _ fun p => ⟨p.block, _, _, rfl⟩)

/-- Lowering that does not end in a defect widens the session. -/
theorem Evolves.widens {K : OpCode → Prop} {f : Frame} {s t : Session} (h : Evolves K f s t) :
    s.Widens t := by
  induction h with
  | refl => exact .refl _
  | step _ hc ih => exact ih.trans hc.widens
  | inner _ ho _ hw ih ihg => exact ((ih.trans ho.widens).trans ihg).trans (ho.widens_close hw)

theorem Visits.widens {f g : Frame} {s t : Session} (h : Visits f s g t) : s.Widens t := by
  induction h with
  | here he => exact he.widens
  | inner he ho _ ih => exact (he.widens.trans ho.widens).trans ih

/-- No step of lowering takes back what a session has widened to. -/
theorem lasting_widens (s : Session) : Lasting s.Widens where
  change h hc := h.trans hc.widens
  openBlock dialect h _ := h.trans (Session.widens_openBlock _ _ dialect)
  openProcedure p message h _ _ := h.trans (Session.widens_openProcedure _ _ p message)
  setLocals _ h := h.trans (.ofTables rfl rfl rfl)
  modifyProcedure r _ _ h :=
    h.trans (Session.widens_modifyProcedure _ r fun p => ⟨p.block, _, _, rfl⟩)
  appendClass h hsymbols _ happ :=
    h.trans (Session.widens_appendClass (hsymbols ▸ SymbolTable.indexed_empty) happ)

/-- In the course of a run a session widens. -/
theorem Course.widens {w : Bool} {P : Instruction → Prop} {α : Type} {f : Frame} {s : State}
    {m : Lower α} (h : Course True P f s m) (hr : Ready w f s) :
    s.session.Widens (final (m f s)) :=
  h.lasts (lasting_widens s.session) hr (.refl _)

end Lowering

end Diglot
