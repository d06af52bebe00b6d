import Diglot.Proofs.Globals.Inherited
import Diglot.Proofs.Variables.Shadowed

/-! # What stands around a procedure

While a procedure is lowered, new blocks come behind all others, and the tables of procedures change. The blocks and the
members that were there stay as they are (`Session.Surrounds`), so that a name from outside of the procedure keeps its
meaning.
-/

set_option autoImplicit false

namespace Diglot

open Lowering

/-! ## Members of classes -/

/-- What members are looked up in: the class without its procedures. -/
def Class.bare (c : Class) : Class := { c with procedures := {} }

namespace ClassTable

/-- The classes have the same bases and members in both tables. -/
structure SameMembers (t u : ClassTable) : Prop where
  size : u.size = t.size
  classes : ∀ i, (u.get? i).map Class.bare = (t.get? i).map Class.bare

namespace SameMembers

variable {t u v : ClassTable}

theorem refl (t : ClassTable) : t.SameMembers t := ⟨rfl, fun _ => rfl⟩

theorem trans (h : t.SameMembers u) (h' : u.SameMembers v) : t.SameMembers v :=
  ⟨h'.size.trans h.size, fun i => (h'.classes i).trans (h.classes i)⟩

/-- Changing a class but for its base and its members. -/
theorem modify (t : ClassTable) (i : Nat) {k : Class → Class} (hk : ∀ c, (k c).bare = c.bare) :
    t.SameMembers (t.modify i k) := by
  refine ⟨by simp [ClassTable.modify, ClassTable.size], fun j => ?_⟩
  rw [get?_modify]
  split
  · rw [Option.map_map]
    exact congrArg (Option.map · (t.get? j)) (funext hk)
  · rfl

/-- What is read of the bare class is read alike. -/
theorem bind_eq (h : t.SameMembers u) {α : Type} {k : Class → Option α} (hk : ∀ c : Class, k c.bare = k c)
    (i : Nat) : (u.get? i).bind k = (t.get? i).bind k := by
  have hbare (o : Option Class) : o.bind k = (o.map Class.bare).bind k := by
    cases o with
    | none => rfl
    | some c => exact (hk c).symm
  rw [hbare, hbare (t.get? i), h.classes]

theorem lineage_eq (h : t.SameMembers u) (i : Nat) : u.lineage i = t.lineage i := by
  have hfuel (fuel i : Nat) : u.lineageFrom fuel i = t.lineageFrom fuel i := by
    induction fuel generalizing i with
    | zero => rfl
    | succ fuel ih =>
      unfold lineageFrom
      rw [h.bind_eq (k := Class.base) (fun _ => rfl)]
      cases (t.get? i).bind Class.base with
      | none => rfl
      | some base => exact congrArg (i :: ·) (ih base)
  unfold lineage
  rw [h.size, hfuel]

theorem isAccessible_eq (h : t.SameMembers u) (owner : Nat) (access : Access) (context : Option Nat) :
    u.isAccessible owner access context = t.isAccessible owner access context := by
  unfold isAccessible isDerived
  simp only [h.lineage_eq]

theorem lookupMember_eq (h : t.SameMembers u) (i : Nat) (name : String) (context : Option Nat) :
    u.lookupMember i name context = t.lookupMember i name context := by
  have hsearch (classes : List Nat) (hidden : Option MemberRef) :
      u.searchMember context (declaredSymbol name) hidden classes =
        t.searchMember context (declaredSymbol name) hidden classes := by
    induction classes generalizing hidden with
    | nil => cases hidden <;> rfl
    | cons owner rest ih =>
      cases hidden <;>
        simp only [searchMember, h.bind_eq (k := declaredSymbol name) (fun _ => rfl), h.isAccessible_eq, ih]
  unfold lookupMember
  rw [h.lineage_eq, hsearch]

end SameMembers

end ClassTable

/-! ## What stands around a procedure -/

namespace Session

/-- The blocks and members that `s` has are the same in `t`, which may have further blocks and other procedures. -/
structure Surrounds (s t : Session) : Prop where
  isWatching : t.isWatching = s.isWatching
  isParsingModule : t.isParsingModule = s.isParsingModule
  size : s.blocks.size ≤ t.blocks.size
  headers : ∀ id, id < s.blocks.size → t.header? id = s.header? id
  classes : s.classes.SameMembers t.classes

namespace Surrounds

variable {s t u : Session}

theorem refl (s : Session) : s.Surrounds s := ⟨rfl, rfl, Nat.le_refl _, fun _ _ => rfl, .refl _⟩

theorem trans (h : s.Surrounds t) (h' : t.Surrounds u) : s.Surrounds u where
  isWatching := h'.isWatching.trans h.isWatching
  isParsingModule := h'.isParsingModule.trans h.isParsingModule
  size := Nat.le_trans h.size h'.size
  headers id hid := (h'.headers id (Nat.lt_of_lt_of_le hid h.size)).trans (h.headers id hid)
  classes := h.classes.trans h'.classes

theorem ofSameNames (h : s.SameNames t) : s.Surrounds t :=
  ⟨h.isWatching, h.isParsingModule, Nat.le_of_eq h.size.symm, fun id _ => congrFun h.headers id,
    h.classes ▸ .refl _⟩

theorem modifyProcedure (s : Session) (r : ProcRef) (k : Procedure → Procedure) :
    s.Surrounds (s.modifyProcedure r k) := by
  unfold Session.modifyProcedure
  split
  · exact ⟨rfl, rfl, Nat.le_refl _, fun _ _ => rfl, .refl _⟩
  · exact ⟨rfl, rfl, Nat.le_refl _, fun _ _ => rfl, .modify _ _ fun _ => rfl⟩

theorem register (s : Session) (scope : Scope) (p : Procedure) : s.Surrounds (s.register scope p) := by
  unfold Session.register
  split
  · exact ⟨rfl, rfl, Nat.le_refl _, fun _ _ => rfl, .modify _ _ fun _ => rfl⟩
  · exact ⟨rfl, rfl, Nat.le_refl _, fun _ _ => rfl, .refl _⟩

theorem openProcedure (s : Session) (f : Frame) (p : Procedure) (message : String) :
    s.Surrounds (s.openProcedure f p message) := by
  have hregister := register s f.scope p
  have hmodify := modifyProcedure (s.register f.scope p) (s.nextProcedure f.scope) fun p =>
    { p with block := some s.blocks.size }
  let opened := ((s.register f.scope p).addBlock .function f.dialect (some f.block)).modifyBlock s.blocks.size
    fun b => { b with procedure := some (s.nextProcedure f.scope) }
  have hlast := modifyProcedure opened (s.nextProcedure f.scope) fun p => { p with block := some s.blocks.size }
  have hwatching : opened.isWatching = (s.register f.scope p).isWatching := rfl
  have hparsing : opened.isParsingModule = (s.register f.scope p).isParsingModule := rfl
  refine ⟨hlast.isWatching.trans (hwatching.trans hregister.isWatching),
    hlast.isParsingModule.trans (hparsing.trans hregister.isParsingModule),
    (s.grows_openProcedure f p message).size_le, fun id hid => ?_, ?_⟩
  · rw [header?_openProcedure, if_neg (Nat.ne_of_lt hid)]
  · rw [(tables_openProcedure s f p message).1]
    exact (hregister.trans hmodify).classes

theorem enterLocal (h : s.Surrounds t) {block : Nat} (hblock : s.blocks.size ≤ block) (x : Symbol) :
    s.Surrounds (t.enterLocal block x) where
  isWatching := h.isWatching
  isParsingModule := h.isParsingModule
  size := by
    unfold Session.enterLocal
    rw [size_blocks_modifyBlock]
    exact h.size
  headers id hid := by
    rw [header?_enterLocal, if_neg (Nat.ne_of_gt (Nat.lt_of_lt_of_le hid hblock))]
    exact h.headers id hid
  classes := h.classes

theorem openBlock (s : Session) (f : Frame) (dialect : Dialect) : s.Surrounds (s.openBlock f dialect) where
  isWatching := rfl
  isParsingModule := rfl
  size := (s.grows_openBlock f dialect).size_le
  headers id hid := by rw [header?_openBlock, if_neg (Nat.ne_of_lt hid)]
  classes := .refl _

theorem setLocals (s : Session) (n : Nat) : s.Surrounds (s.setLocals n) := ofSameNames ⟨rfl, rfl, rfl, rfl, rfl, rfl⟩

end Surrounds

end Session

namespace Lowering

variable {f g : Frame} {s t u : State}

/-- In a procedure that comes behind all blocks of a session, lowering leaves what stands around it as it is. -/
theorem invariant_surrounds (b : Session) :
    Invariant fun f s => f.scope.procedure.isSome ∧ b.blocks.size ≤ f.block ∧ b.Surrounds s where
  change := by
    rintro K f s t ⟨hproc, hblock, hs⟩ hc
    refine ⟨hproc, hblock, ?_⟩
    obtain hsame | ⟨d, rfl⟩ := hc.sameNames_or_declare
    · exact hs.trans (.ofSameNames hsame)
    obtain ⟨cls, counters, -, hnone, -⟩ | ⟨counters, -, -, heq⟩ := s.declare_cases f d
    · rw [hnone] at hproc
      cases hproc
    · rw [heq]
      have hcounted : b.Surrounds { s with counters } := hs.trans (.ofSameNames ⟨rfl, rfl, rfl, rfl, rfl, rfl⟩)
      exact hcounted.enterLocal hblock _
  opens := by
    rintro f g s t close ⟨hproc, hblock, hs⟩ ho
    cases ho with
    | block dialect => exact ⟨hproc, hs.size, hs.trans (.openBlock s f dialect)⟩
    | procedure p message => exact ⟨rfl, hs.size, hs.trans (.openProcedure s f p message)⟩
    | cls c classes hnone =>
      rw [hnone] at hproc
      cases hproc
  closes := by
    rintro K f g s t u v close ⟨hproc, hblock, -⟩ ho - ⟨-, -, hu⟩ hc
    refine ⟨hproc, hblock, ?_⟩
    cases ho with
    | procedure p message =>
      have hlocals := hu.trans (.setLocals u s.counters.locals)
      obtain rfl | ⟨entry, rfl⟩ := hc
      · exact hlocals
      · exact hlocals.trans (.modifyProcedure _ _ _)
    | _ => exact hc ▸ hu

/-- Looking up the header of a procedure declares nothing. -/
def functionHeader (fn : Function) (isGenerated : Bool) : Lower Procedure := do
  let returns ← resolveType fn.returns fn.span
  let args ← resolveParams fn.params
  let attributes ← lowerAttributes fn.attributes
  return { name := fn.name, returns, args, isConstructor := fn.isConstructor, isStatic := fn.isStatic
           isGenerated, access := fn.access, attributes }

theorem lowerFunction_header (fn : Function) (isGenerated : Bool) :
    lowerFunction statement fn isGenerated = functionHeader fn isGenerated >>= lowerBody statement fn := by
  rw [lowerFunction_eq]
  simp only [functionHeader, bind_assoc, pure_bind]

theorem functionHeader_sameNames {fn : Function} {isGenerated : Bool} {p : Procedure}
    (hrun : functionHeader fn isGenerated f s = .ok p t) : s.session.SameNames t.session := by
  have hI : Endures s.session.SameNames 0 f.block := endures_sameNames s.session f.block
  have hspares : Spares s.session.SameNames f (functionHeader fn isGenerated) :=
    .andThen (.resolveType hI _ _) fun _ => .andThen (.resolveParams hI _) fun _ =>
      .andThen (.lowerAttributes hI _) fun _ => .pure trivial
  exact hspares.ok (.refl _) hrun

theorem evolving_declareParams {K : OpCode → Prop} (params : List Argument) : Evolving K (declareParams params) :=
  .forM fun _ _ => .bind (.allocate _) fun _ => .pure _

theorem evolving_lowerCode (unit : List Node) : Evolving (fun _ => True) (lowerCode unit) :=
  .bind (.lowerAll Evolving.statement unit) fun _ => .closeUnit unit

/-- A procedure leaves what stands around it as it is, and has a block of its own. -/
theorem surrounds_lowerFunction {fn : Function} {isGenerated : Bool}
    (hrun : lowerFunction statement fn isGenerated f s = .ok () t) :
    s.session.Surrounds t.session ∧ s.session.blocks.size < t.session.blocks.size := by
  rw [lowerFunction_header] at hrun
  obtain ⟨p, r, hheader, hrun⟩ := bind_eq_ok.mp hrun
  have hsame := functionHeader_sameNames hheader
  obtain ⟨hblock, hcls, hbody⟩ | ⟨-, d, u, hbody, -⟩ := lowerBody_cases fn p f r
  case inr =>
    rw [hrun] at hbody
    cases hbody
  rw [hrun] at hbody
  split at hbody
  case h_2 => cases hbody
  next v hcode =>
  obtain ⟨b, w, hb, hdone⟩ := bind_eq_ok.mp hbody.symm
  rw [run_getBlock] at hb
  split at hb
  case h_2 => cases hb
  cases hb
  cases hdone
  let start := r.session.openProcedure f p (bodyMessage fn.name r.session.blocks.size)
  have hevolves : Evolves (fun _ => True) (bodyUnit f r.session fn.body).site start v.session := by
    have hcourse := Evolving.bind (evolving_declareParams (K := fun _ => True) p.args)
      (fun _ => evolving_lowerCode fn.body) (bodyUnit f r.session fn.body) { session := start }
    rwa [hcode] at hcourse
  have hopened : r.session.Surrounds start := .openProcedure r.session f p _
  have hinner := (invariant_surrounds r.session).evolves hevolves ⟨rfl, Nat.le_refl _, hopened⟩
  have hsize : r.session.blocks.size < v.session.blocks.size := by
    have hnew := Session.header?_openProcedure r.session f p (bodyMessage fn.name r.session.blocks.size)
      r.session.blocks.size
    rw [if_pos rfl] at hnew
    exact Nat.lt_of_lt_of_le (Session.lt_of_header? hnew) hevolves.grows.size_le
  have hclosed : v.session.Surrounds ((v.session.setLocals r.session.counters.locals).modifyProcedure
      (r.session.nextProcedure f.scope) fun p => { p with entry := b.entry, locals := v.session.counters.locals }) :=
    (Session.Surrounds.setLocals _ _).trans (.modifyProcedure _ _ _)
  exact ⟨(Session.Surrounds.ofSameNames hsame).trans (hinner.2.2.trans hclosed),
    hsame.size ▸ Nat.lt_of_lt_of_le hsize hclosed.size⟩

end Lowering

end Diglot
