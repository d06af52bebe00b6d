import Diglot.Proofs.Evolution.Basic
import Diglot.Proofs.Requests
import Diglot.Proofs.Tables.Coherent
import Diglot.Proofs.Evolution.Statement

/-! # Lowering keeps tables in order

Each change that lowering makes keeps the tables of the session in order and the current frame in its
place, and so does the opening and closing of an inner frame (`invariant_coherent`).
-/

set_option autoImplicit false

namespace Diglot

namespace Lowering

variable {K : OpCode → Prop} {f g : Frame} {s t : Session}

/-- Only a declaration changes a table that names are looked up in. -/
theorem Change.sameNames_or_canDeclare (h : Change K f s t) :
    s.SameNames t ∨ ∃ d, s.CanDeclare f d ∧ t = s.declare f d := by
  cases h with
  | note => exact .inl ⟨rfl, rfl, rfl, rfl, rfl, rfl⟩
  | report => exact .inl ⟨rfl, rfl, rfl, rfl, rfl, rfl⟩
  | emit i span => exact .inl (Session.sameNames_emit s f.block i span)
  | patch =>
    unfold Session.replaceCode
    split
    · exact .inl ⟨rfl, rfl, rfl, rfl, rfl, rfl⟩
    · refine .inl (Session.sameNames_modifyBlock ?_ s f.block)
      intro b
      rfl
  | declare d hcan => exact .inr ⟨d, hcan, rfl⟩
  | temporary => exact .inl ⟨rfl, rfl, rfl, rfl, rfl, rfl⟩
  | uid => exact .inl ⟨rfl, rfl, rfl, rfl, rfl, rfl⟩
  | commit node =>
    refine .inl (Session.sameNames_modifyBlock ?_ s node.block)
    intro b
    rfl
  | lateVariable => exact .inl ⟨rfl, rfl, rfl, rfl, rfl, rfl⟩
  | lateMember => exact .inl ⟨rfl, rfl, rfl, rfl, rfl, rfl⟩
  | lateFunction => exact .inl ⟨rfl, rfl, rfl, rfl, rfl, rfl⟩

theorem Change.sameNames_or_declare (h : Change K f s t) :
    s.SameNames t ∨ ∃ d, t = s.declare f d :=
  h.sameNames_or_canDeclare.imp_right fun ⟨d, _, heq⟩ => ⟨d, heq⟩

theorem Change.keeps (h : Change K f s t) : s.Keeps t := by
  rcases h.sameNames_or_declare with h | ⟨d, rfl⟩
  · exact h.keeps
  obtain ⟨cls, counters, _, _, _, _, heq⟩ | ⟨counters, _, _, heq⟩ := s.declare_cases f d
  · rw [heq]
    unfold Session.enterMember
    split
    · exact Session.keeps_enterLocal
        { s with counters, classes := s.classes.appendSymbol cls (s.declared f d) } 0
        { s.declared f d with block := 0 }
    · exact fun _ h hs => ⟨h, hs, rfl⟩
  · rw [heq]
    exact Session.keeps_enterLocal { s with counters } f.block (s.declared f d)

/-- A declared symbol belongs to the procedure of the frame. -/
theorem coherent_declare (h : s.Coherent) (hf : f.Placed s) (d : Declaration) :
    (s.declare f d).Coherent := by
  have hcounters (counters : Counters) : { s with counters }.Coherent :=
    h.sameNames ⟨rfl, rfl, rfl, rfl, rfl, rfl⟩
  have hfunction : (s.declared f d).function = f.scope.procedure.map ProcRef.index := rfl
  obtain ⟨cls, counters, _, hproc, _, _, heq⟩ | ⟨counters, _, _, heq⟩ := s.declare_cases f d
  · rw [heq]
    refine (hcounters counters).enterMember cls ?_
    rw [hfunction, hproc]
    rfl
  · rw [heq]
    refine (hcounters counters).enterLocal fun hd hs => ?_
    obtain ⟨hd', hs', hproc⟩ := hf.block
    have hsame : hd' = hd := Option.some.inj (hs'.symm.trans hs)
    rw [hfunction, ← hproc, hsame]

theorem Change.coherent (hc : Change K f s t) (h : s.Coherent) (hf : f.Placed s) : t.Coherent := by
  rcases hc.sameNames_or_declare with hsame | ⟨d, rfl⟩
  · exact h.sameNames hsame
  · exact coherent_declare h hf d

theorem Opens.keeps {close : Session → Session → Prop} (h : Opens f s g t close) : s.Keeps t := by
  cases h with
  | block dialect => exact Session.keeps_of_new (Session.header?_openBlock s f dialect)
  | procedure p message =>
    exact Session.keeps_of_new (Session.header?_openProcedure s f p message)
  | cls c classes => exact fun _ h hs => ⟨h, hs, rfl⟩

theorem Opens.keeps_close {close : Session → Session → Prop} {u v : Session}
    (h : Opens f s g t close) (hv : close u v) : u.Keeps v := by
  cases h with
  | block dialect =>
    cases hv
    exact .refl u
  | cls c classes =>
    cases hv
    exact .refl u
  | procedure p message =>
    have hproc (r : ProcRef) (k : Procedure → Procedure) (w : Session) :
        w.Keeps (w.modifyProcedure r k) := by
      intro id hd hs
      unfold Session.modifyProcedure
      split <;> exact ⟨hd, hs, rfl⟩
    obtain rfl | ⟨entry, rfl⟩ := hv
    · exact fun _ h hs => ⟨h, hs, rfl⟩
    · exact fun id h hs => hproc _ _ (u.setLocals s.counters.locals) id h hs

/-- Lowering adds blocks but takes none away. -/
theorem Evolves.keeps (h : Evolves K f s t) : s.Keeps t := by
  induction h with
  | refl => exact .refl _
  | step _ hc ih => exact ih.trans hc.keeps
  | inner _ ho _ hw ih ihg => exact ((ih.trans ho.keeps).trans ihg).trans (ho.keeps_close hw)

theorem Opens.coherent {close : Session → Session → Prop} (ho : Opens f s g t close)
    (h : s.Coherent) (hf : f.Placed s) : t.Coherent := by
  cases ho with
  | block dialect => exact Session.coherent_openBlock h hf dialect
  | procedure p message _ hcls => exact Session.coherent_openProcedure h hf hcls p message
  | cls c classes _ _ hsymbols happ =>
    refine h.appendClass ?_ happ
    rw [hsymbols]
    exact SymbolTable.numbered_empty

theorem Opens.placed {close : Session → Session → Prop} (ho : Opens f s g t close)
    (hf : f.Placed s) : g.Placed t := by
  have hkeeps := hf.keeps ho.keeps
  cases ho with
  | block dialect =>
    have hnew := Session.header?_openBlock s f dialect s.blocks.size
    rw [if_pos rfl] at hnew
    exact ⟨⟨_, hnew, rfl⟩, hkeeps.body⟩
  | procedure p message =>
    have hnew := Session.header?_openProcedure s f p message s.blocks.size
    rw [if_pos rfl] at hnew
    refine ⟨⟨_, hnew, rfl⟩, fun id hid => ?_⟩
    cases hid
    exact ⟨_, hnew, rfl⟩
  | cls c classes hproc =>
    obtain ⟨hd, hs, hd'⟩ := hkeeps.block
    refine ⟨⟨hd, hs, hd'.trans hproc⟩, fun id hid => by cases hid⟩

/-- Lowering keeps the tables in order, and every frame in its place. -/
theorem invariant_coherent : Invariant fun f s => s.Coherent ∧ f.Placed s where
  change := fun ⟨h, hf⟩ hc => ⟨hc.coherent h hf, hf.keeps hc.keeps⟩
  opens := fun ⟨h, hf⟩ ho => ⟨ho.coherent h hf, ho.placed hf⟩
  closes := by
    intro K f g s t u v close ⟨h, hf⟩ ho hg ⟨hu, _⟩ hv
    refine ⟨?_, ((hf.keeps ho.keeps).keeps hg.keeps).keeps (ho.keeps_close hv)⟩
    cases ho with
    | block dialect =>
      cases hv
      exact hu
    | cls c classes =>
      cases hv
      exact hu
    | procedure p message =>
      have hlocals : (u.setLocals s.counters.locals).Coherent :=
        hu.sameNames ⟨rfl, rfl, rfl, rfl, rfl, rfl⟩
      obtain rfl | ⟨entry, rfl⟩ := hv
      · exact hlocals
      · exact hlocals.modifyProcedure _ fun _ => rfl

end Lowering

/-! ## Sessions and moments that are reached

* `Session.Reached`: the session is the result of any number of calls on a new session.
* `Moment f s`: in the course of compiling a unit or a watch expression in a reached session, lowering
  is in a frame of site `f` with session `s`. Lookups happen, and code is emitted, at such moments.
* `Moment.coherent`: at every moment the tables are in order and the frame is in its place.
-/

open Lowering

namespace Session

/-! ### Compiling a unit -/

/-- The block of the next unit, and the session in which the unit is lowered. -/
def unitStart (s : Session) (dialect : Dialect) : Nat × Session :=
  let (block, s) := { s with isWatching := false }.openUnit dialect
  let units := s.counters.units + 1
  (block, { s with counters := { s.counters with units } }.note .debug .code
    ("unit #" ++ toString units ++ " in " ++ dialect.name ++ " block " ++ toString block))

/-- The site at which the next unit is lowered. -/
def unitSite (s : Session) (dialect : Dialect) : Frame :=
  { block := (s.unitStart dialect).1, scope := .global, dialect }

/-- The site at which a watch expression is lowered in a block. -/
def watchSite (s : Session) (id : Nat) (b : Block) : Frame :=
  { block := id, scope := s.scopeOf b, dialect := b.dialect }

/-- A step that did not end in a defect evolved the session. -/
theorem lower_evolves {α : Type} {K : OpCode → Prop} {s : Session} {f g : Frame} {m : Lower α}
    (hm : Settled K g { session := s } (m f { session := s })) (hsite : g.site = g)
    (h : ∀ d, (s.lower f m).1 ≠ .error (.defect d)) : Evolves K g s (s.lower f m).2 := by
  have hrun : (m.run f).run { session := s } = m f { session := s } := rfl
  unfold lower at h ⊢
  rw [hrun] at h ⊢
  revert hm h
  rcases m f { session := s } with ⟨a, t⟩ | ⟨d | d, t⟩
  · intro hm _
    rw [← hsite]
    exact hm
  · intro hm _
    rw [← hsite]
    exact hm
  · intro _ h
    exact absurd rfl (h d)

theorem compile_evolves {s : Session} {unit : List Node} {dialect : Dialect}
    (h : ∀ d, (s.compile unit dialect).1 ≠ .error (.defect d)) :
    Evolves (fun _ => True) (s.unitSite dialect) (s.unitStart dialect).2
      (s.compile unit dialect).2 := by
  refine lower_evolves ?_ rfl h
  refine Settled.bind ?_ fun _ _ => .refl _ _ _
  exact lowerUnit_settled Evolving.statement _ _ _ unit [] _ _

/-! ### Compiling a watch expression -/

theorem evolving_lowerWatch (node : Node) : Evolving (fun _ => True) (lowerWatch node) := by
  refine .bind Evolving.free.pc fun entry => .bind (Evolving.free.expression node) fun _ => ?_
  refine .bind (.nextTemporary _) fun name => .bind (.allocate _) fun r => ?_
  refine .bind (Evolving.free.getSymbol r) fun symbol => .bind (.emitSilent trivial _) fun _ => ?_
  exact .bind (.emit trivial _) fun _ => .pure _

theorem watch_evolves {s : Session} {id : Nat} {b : Block} {node : Node}
    (hb : s.block? id = some b)
    (h : ∀ d, (s.watchExpression id node).1 ≠ .error (.defect d)) :
    ∃ t, Evolves (fun _ => True) (s.watchSite id b) { s with isWatching := true } t ∧
      (s.watchExpression id node).2 = { t with isWatching := false } := by
  unfold watchExpression at h ⊢
  rw [hb] at h ⊢
  refine ⟨_, lower_evolves (evolving_lowerWatch node _ _) rfl h, rfl⟩

/-! ### Reached sessions -/

/-- A class that is registered brings a table that was filled entry by entry, and compiling does not end in a
defect. -/
def Faultless (s : Session) : Request → Prop
  | .addClass c => c.symbols.Numbered
  | .compile unit dialect => ∀ d, (s.compile unit dialect).1 ≠ .error (.defect d)
  | .watchExpression id node => ∀ d, (s.watchExpression id node).1 ≠ .error (.defect d)
  | _ => True

/-- The session can be reached by faultless calls on a new session. -/
def Reached (s : Session) : Prop := s.Past Faultless

/-- A unit that compiled leaves a reached session. -/
theorem Reached.ofCompiled {s : Session} (h : s.Reached) {unit : List Node} {dialect : Dialect}
    (hok : (s.compile unit dialect).1.toBool = true) : (s.compile unit dialect).2.Reached := by
  refine h.call (.compile unit dialect) fun d hd => ?_
  rw [hd] at hok
  cases hok

/-! ### Reached sessions are in order -/

theorem coherent_new (options : Options) : (new options).Coherent := by
  have hheader (id : Nat) : (new options).header? id = none := rfl
  refine ⟨?_, ?_, ?_, ?_, ?_⟩
  · intro id h hs
    rw [hheader] at hs
    cases hs
  · intro cls c hc
    have hmem : c ∈ (Primitive.all.map fun p => ({ name := p.name, isPrimitive := true } : Class)) :=
      List.mem_toArray.mp (Array.mem_of_getElem? hc)
    obtain ⟨p, _, rfl⟩ := List.mem_map.mp hmem
    exact SymbolTable.numbered_empty
  · intro h hs
    rw [hheader] at hs
    cases hs
  · intro id h p hs
    rw [hheader] at hs
    cases hs
  · intro id h r hs
    rw [hheader] at hs
    cases hs

theorem Coherent.addFirst {s : Session} (h : s.Coherent) (kind : BlockKind) (dialect : Dialect) :
    (s.addBlock kind dialect none).Coherent :=
  h.withUnit (.inl rfl) (header?_addBlock s kind dialect none) rfl rfl

theorem Coherent.importSymbol {s : Session} (h : s.Coherent) (name : String) (type : Ty)
    (library : String) : (s.importSymbol name type library).2.Coherent := by
  have hstart : (if s.blocks.isEmpty then s.addBlock .global .associative none else s).Coherent := by
    split
    · exact h.addFirst _ _
    · exact h
  unfold Session.importSymbol
  generalize (if s.blocks.isEmpty then s.addBlock .global .associative none else s) = t at hstart ⊢
  have hcounters (counters : Counters) : { t with counters }.Coherent := hstart.congr rfl rfl rfl
  refine (hcounters _).enterLocal fun hd hs => ?_
  rw [hstart.first hd hs]
  rfl

theorem coherent_openUnit {s : Session} (h : s.Coherent) (dialect : Dialect) :
    (s.openUnit dialect).2.Coherent ∧
      ∃ hd, (s.openUnit dialect).2.header? (s.openUnit dialect).1 = some hd ∧ hd.procedure = none := by
  unfold openUnit
  split
  · split
    · next hempty =>
      refine ⟨h.addFirst _ _, ⟨none, none, {}⟩, ?_, rfl⟩
      rw [header?_addBlock, if_pos (Array.isEmpty_iff_size_eq_zero.mp hempty).symm]
    · next hempty =>
      have hheader := header?_modifyBlock (g := fun b => { b with dialect }) (fun _ => rfl) s 0
      have hsize : s.blocks.size ≠ 0 := fun h => hempty (Array.isEmpty_iff_size_eq_zero.mpr h)
      have hzero : s.block? 0 = some s.blocks[0] := Array.getElem?_eq_getElem (by omega)
      refine ⟨h.congr rfl rfl hheader, s.blocks[0].header, ?_, ?_⟩
      · dsimp only
        rw [hheader]
        exact header?_of_block? hzero
      · exact h.first _ (header?_of_block? hzero)
  · refine ⟨h.withUnit (.inr rfl) (header?_addBlock s _ _ _) rfl rfl, ⟨some 0, none, {}⟩, ?_, rfl⟩
    rw [header?_addBlock, if_pos rfl]

theorem coherent_unitStart {s : Session} (h : s.Coherent) (dialect : Dialect) :
    (s.unitStart dialect).2.Coherent ∧ (s.unitSite dialect).Placed (s.unitStart dialect).2 := by
  have hquiet : { s with isWatching := false }.Coherent := h.congr rfl rfl rfl
  obtain ⟨hopen, hd, hs, hproc⟩ := coherent_openUnit hquiet dialect
  exact ⟨hopen.congr rfl rfl rfl, ⟨hd, hs, hproc⟩, fun _ hbody => by cases hbody⟩

theorem coherent_watchStart {s : Session} (h : s.Coherent) {id : Nat} {b : Block}
    (hb : s.block? id = some b) :
    { s with isWatching := true }.Coherent ∧
      (s.watchSite id b).Placed { s with isWatching := true } := by
  have hs := header?_of_block? hb
  refine ⟨h.congr rfl rfl rfl, ?_⟩
  unfold watchSite scopeOf
  cases hproc : b.procedure with
  | none => exact ⟨⟨b.header, hs, hproc⟩, fun _ hbody => by cases hbody⟩
  | some r =>
    obtain ⟨p, body, c, hp, hblock, hc, hcr⟩ := h.bodies id b.header r hs hproc
    refine ⟨⟨b.header, hs, hproc⟩, fun other hother => ?_⟩
    have hbody : ((s.procedure? r).bind Procedure.block).getD b.id = body := by
      rw [hp, Option.bind_some, hblock, Option.getD_some]
    dsimp only at hother
    rw [hbody] at hother
    cases hother
    exact ⟨c, hc, hcr⟩

theorem Reached.coherent {s : Session} (h : s.Reached) : s.Coherent := by
  obtain ⟨options, h⟩ := h
  induction h using Leads.induct with
  | refl => exact coherent_new options
  | setFile t file ih => exact ih.congr rfl rfl rfl
  | setParsingModule t on ih => exact ih.congr rfl rfl rfl
  | importSymbol t name type library _ ih => exact ih.importSymbol name type library
  | addClass t c classes happend hc ih => exact ih.appendClass hc happend
  | addMethod t cls p _ ih => exact ih.register (.inClass cls) p
  | addProcedure t p _ ih => exact ih.register .global p
  | compile t unit dialect hd _ ih =>
    exact (invariant_coherent.evolves (compile_evolves hd) (coherent_unitStart ih dialect)).1
  | watchExpression t id b node hb hd _ ih =>
    obtain ⟨u, hu, heq⟩ := watch_evolves hb hd
    rw [heq]
    exact (invariant_coherent.evolves hu (coherent_watchStart ih hb)).1.congr rfl rfl rfl

end Session

/-! ### Moments -/

/-- Lowering is in a frame of the given site with the given session, in the course of a call on a
reached session. -/
inductive Moment (f : Frame) (t : Session) : Prop where
  | unit {s : Session} (dialect : Dialect) : s.Reached →
      Visits (s.unitSite dialect) (s.unitStart dialect).2 f t → Moment f t
  | watch {s : Session} {id : Nat} {b : Block} : s.Reached → s.block? id = some b →
      Visits (s.watchSite id b) { s with isWatching := true } f t → Moment f t

theorem Moment.ofWatch {s : Session} (h : s.Reached) (id : Nat) {f : Frame}
    (hf : (s.block? id).map (s.watchSite id) = some f) : Moment f { s with isWatching := true } := by
  obtain ⟨b, hb, rfl⟩ := Option.map_eq_some_iff.mp hf
  exact .watch h hb (.here (.refl (fun _ => True) _ _))

theorem Moment.coherent {f : Frame} {t : Session} (h : Moment f t) : t.Coherent ∧ f.Placed t := by
  cases h with
  | unit dialect hs hv =>
    exact invariant_coherent.visits hv (Session.coherent_unitStart hs.coherent dialect)
  | watch hs hb hv =>
    exact invariant_coherent.visits hv (Session.coherent_watchStart hs.coherent hb)

end Diglot
