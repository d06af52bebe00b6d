import Diglot.Proofs.Slots.Session

/-! # Counts of instance members

The instance members of a class are counted on from those of its base class. The count of a class
begins where that of its base class ended when the class got its first member, and a class without
members has no count.

* `Session.Stacked`: the members of a class fill the places from the end of its base class on.
* `invariant_layered`: lowering keeps all declared classes stacked. While the members of a class are
  laid out, no class derives from it yet.
* `Traced.layered`: so they are stacked in every session.
-/

set_option autoImplicit false

namespace Diglot

open Lowering

namespace Session

/-! ## Base classes -/

def base? (s : Session) (cls : Nat) : Option Nat := (s.classes.get? cls).bind Class.base

/-- Classes come behind their base classes. -/
def BasesFirst (s : Session) : Prop := ∀ cls b, s.base? cls = some b → b < cls

/-- Both sessions have the same classes, with the same base classes. -/
structure SameBases (s t : Session) : Prop where
  size : t.classes.size = s.classes.size
  base? : t.base? = s.base?

variable {s t : Session} {f g : Frame} {R : Nat → Prop}

theorem SameBases.trans {u : Session} (h : s.SameBases t) (h' : t.SameBases u) : s.SameBases u :=
  ⟨h'.size.trans h.size, h'.base?.trans h.base?⟩

theorem SameBases.ofClasses (h : t.classes = s.classes) : s.SameBases t := by
  refine ⟨by rw [h], ?_⟩
  funext cls
  simp only [Session.base?, h]

theorem SameBases.modify (cls : Nat) {k : Class → Class} (hk : ∀ c, (k c).base = c.base)
    (h : t.classes = s.classes.modify cls k) : s.SameBases t := by
  refine ⟨by rw [h]; exact Array.size_modify, ?_⟩
  funext other
  simp only [Session.base?, h, ClassTable.get?_modify]
  split
  · cases s.classes.get? other with
    | none => rfl
    | some c => exact hk c
  · rfl

theorem sameBases_declare (s : Session) (f : Frame) (d : Declaration) :
    s.SameBases (s.declare f d) := by
  obtain ⟨cls, counters, _, _, _, _, heq⟩ | ⟨counters, _, _, heq⟩ := s.declare_cases f d
  · refine .modify cls (k := fun c => { c with symbols := c.symbols.append (s.declared f d) })
      (fun _ => rfl) ?_
    rw [heq]
    unfold enterMember
    split <;> rfl
  · rw [heq]
    exact .ofClasses rfl

theorem sameBases_register (s : Session) (scope : Scope) (p : Procedure) :
    s.SameBases (s.register scope p) := by
  unfold register
  split
  · next cls _ =>
    refine .modify cls (k := fun c =>
      { c with procedures := c.procedures.append { p with classScope := some cls } }) ?_ rfl
    exact fun _ => rfl
  · exact .ofClasses rfl

theorem sameBases_modifyProcedure (s : Session) (r : ProcRef) (k : Procedure → Procedure) :
    s.SameBases (s.modifyProcedure r k) := by
  unfold modifyProcedure
  split
  · exact .ofClasses rfl
  · next cls _ =>
    refine .modify cls (k := fun c =>
      { c with procedures := c.procedures.modify r.index k }) ?_ rfl
    exact fun _ => rfl

theorem sameBases_openProcedure (s : Session) (f : Frame) (p : Procedure) (message : String) :
    s.SameBases (s.openProcedure f p message) :=
  ((sameBases_register s f.scope p).trans (sameBases_modifyProcedure _ (s.nextProcedure f.scope) _)).trans
    (.ofClasses (tables_openProcedure s f p message).1)

theorem base?_append? {c : Class} {classes : ClassTable} (h : s.classes.append? c = some classes)
    (cls : Nat) : ({ s with classes } : Session).base? cls =
      if cls = s.classes.size then c.base else s.base? cls := by
  unfold base?
  dsimp only
  rw [ClassTable.get?_append? h]
  split <;> rfl

theorem BasesFirst.of_append? {c : Class} {classes : ClassTable}
    (happ : s.classes.append? c = some classes) (h : ({ s with classes } : Session).BasesFirst) :
    s.BasesFirst := by
  intro cls b hb
  refine h cls b ?_
  rw [base?_append? happ, if_neg]
  · exact hb
  · rintro rfl
    unfold base? at hb
    rw [ClassTable.get?_size] at hb
    cases hb

end Session

namespace Lowering

variable {K : OpCode → Prop} {f g : Frame} {s t : Session} {close : Session → Session → Prop}

theorem Change.sameBases (h : Change K f s t) : s.SameBases t := by
  rcases h.sameNames_or_declare with hsame | ⟨d, rfl⟩
  · exact .ofClasses hsame.classes
  · exact s.sameBases_declare f d

/-- Only at the top level of a unit are classes added. -/
theorem Opens.sameBases (h : Opens f s g t close)
    (hscope : f.scope.procedure.isSome ∨ f.scope.classScope.isSome) :
    s.SameBases t ∧ (g.scope.procedure.isSome ∨ g.scope.classScope.isSome) := by
  cases h with
  | block dialect => exact ⟨.ofClasses rfl, hscope⟩
  | procedure p message => exact ⟨s.sameBases_openProcedure f p message, .inl rfl⟩
  | cls c classes hproc hcls =>
    rw [hproc, hcls] at hscope
    rcases hscope with h | h <;> cases h

theorem Opens.sameBases_close {u v : Session} (h : Opens f s g t close) (hv : close u v) :
    u.SameBases v := by
  cases h with
  | block => exact hv ▸ .ofClasses rfl
  | cls => exact hv ▸ .ofClasses rfl
  | procedure =>
    obtain rfl | ⟨entry, rfl⟩ := hv
    · exact .ofClasses rfl
    · exact .trans (t := u.setLocals s.counters.locals) (.ofClasses rfl)
        (Session.sameBases_modifyProcedure _ _ _)

theorem Evolves.sameBases (h : Evolves K f s t)
    (hscope : f.scope.procedure.isSome ∨ f.scope.classScope.isSome) : s.SameBases t := by
  induction h with
  | refl => exact .ofClasses rfl
  | step _ hc ih => exact (ih hscope).trans hc.sameBases
  | inner _ ho _ hw ih ihg =>
    obtain ⟨hopen, hinner⟩ := ho.sameBases hscope
    exact (((ih hscope).trans hopen).trans (ihg hinner)).trans (ho.sameBases_close hw)

end Lowering

/-! ## Counts of instance members -/

namespace Session

variable {s t : Session} {f g : Frame} {R : Nat → Prop}

/-- An instance member of the class. -/
def IsInstanceOf (s : Session) (cls : Nat) (a : SymbolRef) (x : Symbol) : Prop :=
  s.symbol? a = some x ∧ a.owner = .cls cls ∧ x.isStatic = false

def HasInstances (s : Session) (cls : Nat) : Prop := ∃ a x, s.IsInstanceOf cls a x

/-- The count of the instance members of a class, if it has any. -/
def instances? (s : Session) (cls : Nat) : Option Nat := s.counters.classInstances.get? cls

/-- The place of the first instance member of a class. -/
def firstPlace (s : Session) (cls : Nat) : Nat := ((s.base? cls).bind s.instances?).getD 0

/-- The instance members of a class have the places from the first one up to the count, and no two of
them share one. A class without a count has no members. -/
structure Stacked (s : Session) (cls : Nat) : Prop where
  empty : s.instances? cls = none → ¬ s.HasInstances cls
  placed : ∀ n, s.instances? cls = some n →
    ∃ count, n = s.firstPlace cls + count ∧
      Spread (s.IsInstanceOf cls) Symbol.offset (fun k => ((s.firstPlace cls + k : Nat) : Int)) count
  begun : ∀ n, s.instances? cls = some n →
    ∃ a x, s.IsInstanceOf cls a x ∧ x.offset = s.firstPlace cls

theorem Stacked.congr {cls : Nat} (h : s.Stacked cls)
    (hinstance : t.IsInstanceOf cls = s.IsInstanceOf cls)
    (hcount : t.instances? cls = s.instances? cls) (hfirst : t.firstPlace cls = s.firstPlace cls) :
    t.Stacked cls := by
  refine ⟨?_, ?_, ?_⟩
  · rw [HasInstances, hcount, hinstance]
    exact h.empty
  · rw [hcount, hfirst, hinstance]
    exact h.placed
  · rw [hcount, hfirst, hinstance]
    exact h.begun

/-- Only an instance member of a class moves the count of the class. -/
theorem instances?_declare (s : Session) (f : Frame) (d : Declaration) (cls : Nat) :
    (s.declare f d).instances? cls =
      if bucketOf s.isWatching f.scope d.isStatic = .classInstance cls then
        some ((s.instances? cls).getD (s.firstPlace cls) + 1)
      else s.instances? cls := by
  have hcounters : (s.declare f d).counters.classInstances =
      ((bucketOf s.isWatching f.scope d.isStatic).setNext s.counters
        ((bucketOf s.isWatching f.scope d.isStatic).next s.counters s.classes + 1)).classInstances := by
    rw [counters_declare]
    unfold countersAfter
    dsimp only
    split <;> rfl
  unfold instances?
  rw [hcounters]
  generalize bucketOf s.isWatching f.scope d.isStatic = bucket
  cases bucket with
  | classInstance other =>
    simp only [Bucket.setNext, Bucket.next, Tally.get?_set, Bucket.classInstance.injEq]
    by_cases heq : cls = other
    · subst heq
      rw [if_pos rfl, if_pos rfl]
      unfold firstPlace base? instances?
      cases s.counters.classInstances.get? cls <;> rfl
    · rw [if_neg heq, if_neg (Ne.symm heq)]
  | _ => rfl

theorem offset_instance {d : Declaration} {cls : Nat}
    (hbucket : bucketOf s.isWatching f.scope d.isStatic = .classInstance cls) :
    (s.declared f d).offset = ((s.instances? cls).getD (s.firstPlace cls) : Nat) := by
  change (bucketOf s.isWatching f.scope d.isStatic).offset _ = _
  rw [hbucket]
  change (((Bucket.classInstance cls).next s.counters s.classes : Nat) : Int) = _
  unfold Bucket.next instances? firstPlace base?
  dsimp only
  cases s.counters.classInstances.get? cls <;> rfl

theorem bucketOf_eq_classInstance {w isStatic : Bool} {scope : Scope} {cls : Nat}
    (h : bucketOf w scope isStatic = .classInstance cls) :
    w = false ∧ isStatic = false ∧ scope.procedure = none ∧ scope.classScope = some cls := by
  unfold bucketOf Scope.function at h
  revert h
  cases w <;> cases scope.procedure <;> cases scope.classScope <;> cases isStatic <;> simp

theorem isInstanceOf_declare {d : Declaration} {cls : Nat} {a : SymbolRef} {x : Symbol}
    (h : (s.declare f d).IsInstanceOf cls a x) : s.IsInstanceOf cls a x ∨
      bucketOf s.isWatching f.scope d.isStatic = .classInstance cls ∧ a = s.next (.cls cls) ∧
        x.offset = ((s.instances? cls).getD (s.firstPlace cls) : Nat) := by
  obtain ⟨hx, howner, hstatic⟩ := h
  rcases s.symbol?_declare f d with ⟨other, hw, hproc, hscope, hcases⟩ | ⟨hcase, hcases⟩
  · rcases hcases a x hx with hx | ⟨rfl, rfl⟩ | ⟨⟨id, hid⟩, _⟩
    · exact .inl ⟨hx, howner, hstatic⟩
    · cases howner
      have hbucket : bucketOf s.isWatching f.scope d.isStatic = .classInstance cls := by
        have hstatic' : d.isStatic = false := hstatic
        simp [bucketOf, hw, Scope.function, hproc, hscope, hstatic']
      exact .inr ⟨hbucket, rfl, offset_instance hbucket⟩
    · rw [howner] at hid
      cases hid
  · rcases hcases a x hx with hx | ⟨rfl, _⟩
    · exact .inl ⟨hx, howner, hstatic⟩
    · cases howner

theorem isInstanceOf_declared {d : Declaration} {cls : Nat} {c : Class}
    (hc : s.classes.get? cls = some c)
    (hbucket : bucketOf s.isWatching f.scope d.isStatic = .classInstance cls) :
    ∃ x, (s.declare f d).IsInstanceOf cls (s.next (.cls cls)) x ∧
      x.offset = ((s.instances? cls).getD (s.firstPlace cls) : Nat) := by
  refine ⟨{ s.declared f d with position := c.symbols.size }, ⟨?_, rfl, ?_⟩, offset_instance hbucket⟩
  · rw [next_cls hc, symbol?_cls]
    have hclasses : (s.declare f d).classes = s.classes.appendSymbol cls (s.declared f d) := by
      unfold declare declared
      rw [hbucket]
      dsimp only [enterMember]
      split <;> rfl
    rw [hclasses, ClassTable.appendSymbol, ClassTable.get?_modify, if_pos rfl, hc]
    exact SymbolTable.get?_append_size c.symbols (s.declared f d)
  · exact (bucketOf_eq_classInstance hbucket).2.1

/-- The class whose body is being lowered gets one more member. -/
theorem Stacked.extend {d : Declaration} {cls : Nat} {c : Class} (h : s.Stacked cls)
    (hself : s.base? cls ≠ some cls) (hc : s.classes.get? cls = some c)
    (hbucket : bucketOf s.isWatching f.scope d.isStatic = .classInstance cls) :
    (s.declare f d).Stacked cls := by
  have hcount : (s.declare f d).instances? cls =
      some ((s.instances? cls).getD (s.firstPlace cls) + 1) := by
    rw [instances?_declare, if_pos hbucket]
  have hfirst : (s.declare f d).firstPlace cls = s.firstPlace cls := by
    unfold firstPlace
    rw [(s.sameBases_declare f d).base?]
    cases hb : s.base? cls with
    | none => rfl
    | some b =>
      have hne : b ≠ cls := fun heq => hself (heq ▸ hb)
      simp only [Option.bind_some]
      rw [instances?_declare, hbucket, if_neg fun heq => hne (Bucket.classInstance.inj heq).symm]
  obtain ⟨y, hy, hoffset⟩ := isInstanceOf_declared hc hbucket
  -- The members so far fill the places below the count, which is zero if there are none.
  have hspread : ∃ count, (s.instances? cls).getD (s.firstPlace cls) = s.firstPlace cls + count ∧
      Spread (s.IsInstanceOf cls) Symbol.offset (fun k => ((s.firstPlace cls + k : Nat) : Int))
        count := by
    cases hn : s.instances? cls with
    | none => exact ⟨0, rfl, .ofNone fun a x hx => h.empty hn ⟨a, x, hx⟩⟩
    | some n => exact h.placed n hn
  obtain ⟨count, hnext, hspread⟩ := hspread
  rw [hnext] at hcount hoffset
  refine ⟨fun hnone => ?_, fun n hn => ?_, fun n hn => ?_⟩
  · rw [hnone] at hcount
    cases hcount
  · rw [hcount] at hn
    cases hn
    rw [hfirst]
    refine ⟨count + 1, rfl, hspread.extend (fun j k hjk => by omega) (s.next (.cls cls)) ?_⟩
    intro a x hx
    rcases isInstanceOf_declare hx with hx | ⟨_, ha, hxo⟩
    · exact .inl hx
    · exact .inr ⟨ha, by rw [hxo, hnext]⟩
  · rw [hfirst]
    cases hm : s.instances? cls with
    | none =>
      rw [hm] at hnext
      exact ⟨_, y, hy, by rw [hoffset, ← hnext]; rfl⟩
    | some m =>
      obtain ⟨a, x, ⟨hx, howner, hstatic⟩, hxo⟩ := h.begun m hm
      exact ⟨a, x, ⟨(s.grows_declare f d).symbols a x hx, howner, hstatic⟩, hxo⟩

/-- A declaration leaves the members of other classes as they are, unless they are counted on from the
class that gets a member. -/
theorem Stacked.other {d : Declaration} {cls : Nat} (h : s.Stacked cls)
    (hbucket : bucketOf s.isWatching f.scope d.isStatic ≠ .classInstance cls)
    (hbase : ∀ b, s.base? cls = some b →
      bucketOf s.isWatching f.scope d.isStatic ≠ .classInstance b) :
    (s.declare f d).Stacked cls := by
  have hcount : (s.declare f d).instances? cls = s.instances? cls := by
    rw [instances?_declare, if_neg hbucket]
  have hfirst : (s.declare f d).firstPlace cls = s.firstPlace cls := by
    unfold firstPlace
    rw [(s.sameBases_declare f d).base?]
    cases hb : s.base? cls with
    | none => rfl
    | some b =>
      simp only [Option.bind_some]
      rw [instances?_declare, if_neg (hbase b hb)]
  have hinstance : (s.declare f d).IsInstanceOf cls = s.IsInstanceOf cls := by
    funext a x
    refine propext ⟨fun hx => ?_, fun ⟨hx, howner, hstatic⟩ => ?_⟩
    · rcases isInstanceOf_declare hx with hx | ⟨heq, _⟩
      · exact hx
      · exact absurd heq hbucket
    · exact ⟨(s.grows_declare f d).symbols a x hx, howner, hstatic⟩
  exact h.congr hinstance hcount hfirst

/-! ## The invariant -/

/-- The declared classes are stacked, and only classes that exist have a count. -/
structure Layered (R : Nat → Prop) (s : Session) : Prop where
  counted : ∀ cls, (s.instances? cls).isSome → cls < s.classes.size
  stacked : s.BasesFirst → ∀ cls, ¬ R cls → s.Stacked cls

theorem Layered.congr (h : Layered R s) (hsymbol : t.symbol? = s.symbol?)
    (hcount : t.instances? = s.instances?) (hbases : s.SameBases t) : Layered R t := by
  refine ⟨?_, fun hfirst cls hcls => ?_⟩
  · rw [hcount, hbases.size]
    exact h.counted
  · refine (h.stacked (fun c b hb => hfirst c b ?_) cls hcls).congr ?_ (congrFun hcount cls) ?_
    · rw [hbases.base?, hb]
    · funext a x
      simp only [IsInstanceOf, hsymbol]
    · simp only [firstPlace, hbases.base?, hcount]

theorem instances?_of_counters (h : t.counters.classInstances = s.counters.classInstances) :
    t.instances? = s.instances? := by
  funext cls
  simp only [instances?, h]

theorem Layered.declare (h : Layered R s) (hlast : f.scope.procedure = none →
      ∀ cls, f.scope.classScope = some cls → cls + 1 = s.classes.size) (d : Declaration) :
    Layered R (s.declare f d) := by
  have hbases := s.sameBases_declare f d
  have hsize {cls : Nat} (hb : bucketOf s.isWatching f.scope d.isStatic = .classInstance cls) :
      cls + 1 = s.classes.size :=
    hlast (bucketOf_eq_classInstance hb).2.2.1 cls (bucketOf_eq_classInstance hb).2.2.2
  refine ⟨fun cls hcls => ?_, fun hfirst cls hcls => ?_⟩
  · rw [hbases.size]
    rw [instances?_declare] at hcls
    split at hcls
    · next hb =>
      have := hsize hb
      omega
    · exact h.counted cls hcls
  · have hfirst' : s.BasesFirst := fun c b hb => hfirst c b (by rw [hbases.base?, hb])
    have hstacked := h.stacked hfirst' cls hcls
    by_cases hb : bucketOf s.isWatching f.scope d.isStatic = .classInstance cls
    · have hlt : cls < s.classes.size := by
        have := hsize hb
        omega
      refine hstacked.extend (fun hself => ?_) (Array.getElem?_eq_getElem hlt) hb
      exact absurd (hfirst' cls cls hself) (Nat.lt_irrefl _)
    · refine hstacked.other hb fun b hbase heq => ?_
      -- The class that gets a member is the last one, and no class before it derives from it.
      have hlt := hfirst' cls b hbase
      have := hsize heq
      obtain ⟨c, hc, _⟩ := Option.bind_eq_some_iff.mp hbase
      have hcls : cls < s.classes.size := (Array.getElem?_eq_some_iff.mp hc).1
      omega

theorem Layered.appendClass (h : Layered R s) {Q : Nat → Prop} {c : Class} {classes : ClassTable}
    (happ : s.classes.append? c = some classes) (hQ : ∀ cls, ¬ Q cls → ¬ R cls)
    (hnew : c.symbols = {} ∨ Q s.classes.size) : Layered Q { s with classes } := by
  have hsymbol {cls : Nat} (hcls : cls ≠ s.classes.size) (i : Nat) :
      ({ s with classes } : Session).symbol? ⟨.cls cls, i⟩ = s.symbol? ⟨.cls cls, i⟩ := by
    rw [symbol?_cls, symbol?_cls, ClassTable.get?_append? happ, if_neg hcls]
  refine ⟨fun cls hcls => ?_, fun hfirst cls hcls => ?_⟩
  · rw [ClassTable.size_append? happ]
    have := h.counted cls hcls
    omega
  · by_cases hlast : cls = s.classes.size
    · subst hlast
      have hempty := hnew.resolve_right hcls
      have hnone : s.instances? s.classes.size = none := by
        refine Option.not_isSome_iff_eq_none.mp fun hsome => ?_
        exact absurd (h.counted _ hsome) (Nat.lt_irrefl _)
      refine ⟨fun _ => ?_, fun n hn => ?_, fun n hn => ?_⟩
      · rintro ⟨⟨owner, i⟩, x, hx, howner, _⟩
        cases howner
        rw [symbol?_appendClass hempty happ, symbol?_cls, ClassTable.get?_size] at hx
        cases hx
      · cases hnone.symm.trans hn
      · cases hnone.symm.trans hn
    · have hstacked := h.stacked (hfirst.of_append? happ) cls (hQ cls hcls)
      have hinstance : ({ s with classes } : Session).IsInstanceOf cls = s.IsInstanceOf cls := by
        funext ⟨owner, i⟩ x
        refine propext ⟨fun ⟨hx, howner, hstatic⟩ => ?_, fun ⟨hx, howner, hstatic⟩ => ?_⟩ <;>
          cases howner
        · exact ⟨(hsymbol hlast i).symm.trans hx, rfl, hstatic⟩
        · exact ⟨(hsymbol hlast i).trans hx, rfl, hstatic⟩
      have hplace : ({ s with classes } : Session).firstPlace cls = s.firstPlace cls := by
        unfold firstPlace
        rw [base?_append? happ, if_neg hlast]
        rfl
      exact hstacked.congr hinstance rfl hplace

end Session

namespace Lowering

open Session

variable {R : Nat → Prop} {s t : Session} {f g : Frame}

/-- The declared classes are stacked, and the class whose body is being lowered is the last one. -/
structure LayeredIn (R : Nat → Prop) (f : Frame) (s : Session) : Prop where
  layered : s.Layered R
  last : f.scope.procedure = none → ∀ cls, f.scope.classScope = some cls → cls + 1 = s.classes.size

theorem LayeredIn.change {K : OpCode → Prop} (h : LayeredIn R f s) (hc : Change K f s t) :
    LayeredIn R f t := by
  refine ⟨?_, fun hproc cls hcls => (h.last hproc cls hcls).trans hc.sameBases.size.symm⟩
  rcases hc.unmoved_or_declare with ⟨d, rfl⟩ | ⟨hsame, n, hn⟩
  · exact h.layered.declare h.last d
  · exact h.layered.congr (symbol?_of_tables hsame.classes hsame.headers)
      (instances?_of_counters (by rw [hn])) hc.sameBases

theorem LayeredIn.opens {close : Session → Session → Prop} (h : LayeredIn R f s)
    (ho : Opens f s g t close) : LayeredIn R g t := by
  have hsymbol := ho.symbol?_eq
  obtain ⟨n, hn, _⟩ := ho.counters_eq
  have hcount : t.instances? = s.instances? := instances?_of_counters (by rw [hn])
  cases ho with
  | block dialect => exact ⟨h.layered.congr hsymbol hcount (.ofClasses rfl), h.last⟩
  | procedure p message =>
    exact ⟨h.layered.congr hsymbol hcount (s.sameBases_openProcedure f p message), nofun⟩
  | cls c classes hproc hcls hempty happ =>
    refine ⟨h.layered.appendClass happ (fun _ => id) (.inl hempty), fun _ cls hlast => ?_⟩
    cases hlast
    exact (ClassTable.size_append? happ).symm

theorem LayeredIn.closes {K : OpCode → Prop} {close : Session → Session → Prop} {u v : Session}
    (h : LayeredIn R f s) (ho : Opens f s g t close) (he : Evolves K g t u) (hu : LayeredIn R g u)
    (hv : close u v) : LayeredIn R f v := by
  have hbases := ho.sameBases_close hv
  cases ho with
  | block dialect =>
    cases hv
    exact ⟨hu.layered, hu.last⟩
  | cls c classes hproc hcls =>
    cases hv
    exact ⟨hu.layered, fun _ cls hsome => by rw [hcls] at hsome; cases hsome⟩
  | procedure p message =>
    have hinner := ((s.sameBases_openProcedure f p message).trans (he.sameBases (.inl rfl))).trans hbases
    refine ⟨hu.layered.congr ?_ (instances?_of_counters ?_) hbases,
      fun hproc cls hcls => (h.last hproc cls hcls).trans hinner.size.symm⟩ <;>
      obtain rfl | ⟨entry, rfl⟩ := hv
    · rfl
    · exact symbol?_modifyProcedure _ _ _
    · rfl
    · rw [counters_modifyProcedure]
      rfl

theorem invariant_layered (R : Nat → Prop) : Invariant (LayeredIn R) where
  change := LayeredIn.change
  opens := LayeredIn.opens
  closes := LayeredIn.closes

end Lowering

/-! ## Calls -/

namespace Session

variable {W V : SymbolRef → Prop} {R Q : Nat → Prop} {s t : Session}

theorem layered_new (options : Options) : Layered (fun _ => False) (new options) := by
  refine ⟨nofun, fun _ cls _ => ⟨fun _ => ?_, nofun, nofun⟩⟩
  rintro ⟨⟨owner, i⟩, x, hx, howner, _⟩
  cases howner
  rw [symbol?_cls] at hx
  obtain ⟨c, hc, hx⟩ := Option.bind_eq_some_iff.mp hx
  have hmem : c ∈ Primitive.all.map fun p => ({ name := p.name, isPrimitive := true } : Class) :=
    List.mem_toArray.mp (Array.mem_of_getElem? hc)
  obtain ⟨p, _, rfl⟩ := List.mem_map.mp hmem
  cases hx

theorem Layered.enterLocal (h : Layered R s) (id : Nat) (x : Symbol) :
    Layered R (s.enterLocal id x) := by
  have hinstance (cls : Nat) : (s.enterLocal id x).IsInstanceOf cls = s.IsInstanceOf cls := by
    funext ⟨owner, i⟩ y
    refine propext ⟨fun ⟨hy, howner, hstatic⟩ => ?_, fun ⟨hy, howner, hstatic⟩ => ?_⟩ <;> cases howner
    · exact ⟨hy, rfl, hstatic⟩
    · exact ⟨hy, rfl, hstatic⟩
  exact ⟨h.counted, fun hfirst cls hcls => (h.stacked hfirst cls hcls).congr (hinstance cls) rfl rfl⟩

theorem Layered.addBlock (h : Layered R s) (kind : BlockKind) (dialect : Dialect)
    (parent : Option Nat) : Layered R (s.addBlock kind dialect parent) := by
  have hc : (s.addBlock kind dialect parent).classes = s.classes := by cases parent <;> rfl
  exact h.congr (symbol?_of_new (header?_addBlock s kind dialect parent) hc)
    (instances?_of_counters (by rw [counters_addBlock])) (.ofClasses hc)

theorem Layered.importSymbol (h : Layered R s) (name : String) (type : Ty) (library : String) :
    Layered R (s.importSymbol name type library).2 := by
  have hcounted {u : Session} (hu : Layered R u) (n : Nat) :
      Layered R { u with counters := { u.counters with globals := n } } :=
    hu.congr rfl rfl (.ofClasses rfl)
  unfold Session.importSymbol
  dsimp only
  split
  · exact (hcounted (h.addBlock .global .associative none) _).enterLocal 0 _
  · exact (hcounted h _).enterLocal 0 _

theorem Layered.unitStart (h : Layered R s) (dialect : Dialect) :
    Layered R (s.unitStart dialect).2 := by
  have hquiet : Layered R { s with isWatching := false } := h.congr rfl rfl (.ofClasses rfl)
  have hopen : Layered R ({ s with isWatching := false }.openUnit dialect).2 := by
    unfold Session.openUnit
    split
    · split
      · exact hquiet.addBlock .global dialect none
      · have hheader := header?_modifyBlock (g := fun b => { b with dialect }) (fun _ => rfl)
          { s with isWatching := false } 0
        exact hquiet.congr (symbol?_of_tables rfl hheader) rfl (.ofClasses rfl)
    · exact hquiet.addBlock .global dialect (some 0)
  exact hopen.congr rfl rfl (.ofClasses rfl)

theorem Layered.register (h : Layered R s) (scope : Scope) (p : Procedure) :
    Layered R (s.register scope p) :=
  h.congr (s.symbol?_register scope p) (instances?_of_counters (by rw [counters_register]))
    (s.sameBases_register scope p)

theorem Layered.watchExpression (h : Layered R s) {id : Nat} {node : Node}
    (hd : ∀ d, (s.watchExpression id node).1 ≠ .error (.defect d)) :
    Layered R (s.watchExpression id node).2 := by
  cases hb : s.block? id with
  | none =>
    unfold Session.watchExpression
    rw [hb]
    exact h
  | some b =>
    obtain ⟨u, hu, heq⟩ := watch_evolves hb hd
    have hstart : LayeredIn R (s.watchSite id b) { s with isWatching := true } := by
      refine ⟨h.congr rfl rfl (.ofClasses rfl), fun hproc cls hcls => ?_⟩
      revert hproc hcls
      unfold watchSite scopeOf
      cases b.procedure <;> nofun
    rw [heq]
    exact ((invariant_layered R).evolves hu hstart).layered.congr rfl rfl (.ofClasses rfl)

theorem Layered.serve (hs : Layered R s) (request : Request) (hfaultless : s.Faultless request) :
    Layered (s.registered request R) (s.serve request).2 := by
  cases request with
  | setFile file => exact hs.congr rfl rfl (.ofClasses rfl)
  | setParsingModule on => exact hs.congr rfl rfl (.ofClasses rfl)
  | importSymbol name type library => exact hs.importSymbol name type library
  | addClass c =>
    change Layered (fun cls => R cls ∨ (s.addClass c).1 = some cls) (s.addClass c).2
    unfold Session.addClass
    cases happ : s.classes.append? c with
    | some classes => exact hs.appendClass happ (fun _ hQ hR => hQ (.inl hR)) (.inr (.inr rfl))
    | none => exact ⟨hs.counted, fun hfirst cls hcls => hs.stacked hfirst cls fun hR => hcls (.inl hR)⟩
  | addMethod cls p =>
    change Layered R (s.addMethod cls p).2
    unfold Session.addMethod
    split
    · exact hs.register (.inClass cls) p
    · exact hs
  | addProcedure p => exact hs.register .global p
  | compile unit dialect =>
    exact ((invariant_layered R).evolves (compile_evolves hfaultless) ⟨hs.unitStart dialect, nofun⟩).layered
  | watchExpression id node => exact hs.watchExpression hfaultless

theorem Traced.layered (h : Traced W R s) : Layered R s := by
  induction h using Traced.induct with
  | new options => exact layered_new options
  | call W R s request _ hfaultless ih => exact ih.serve request hfaultless

end Session

end Diglot
