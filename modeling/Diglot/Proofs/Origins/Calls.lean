import Diglot.Proofs.Law.Session
import Diglot.Proofs.Origins.Codes

/-! # What calls and late-bound members refer to

A call refers to a procedure that answers to it: it takes as many arguments as were lowered for the call. A
call that is looked up at run time refers to an entry with its name and the number of its arguments, and a
late-bound member to an entry of its own table.

* `FollowsArgs`: the place in the code is the one behind the arguments.
* `Session.Answers`: the procedure can be called like this.
* `Session.Refers`: what the instruction at a place refers to is there, and fits.
* `Session.Sourced`: so it is wherever code refers to something.
* `sourcing`: lowering keeps this, whatever it lowers.
-/

set_option autoImplicit false

namespace Diglot

open Lowering

/-- The arguments were lowered right before the place in the code. -/
def FollowsArgs (code : Array Instruction) (pc : Nat) (args : List Node) : Prop :=
  ∃ w f s t, Primed w f s ∧ lowerArgs args f s = .ok () t ∧
    (t.session.stream f.block).size = pc ∧ Begins (t.session.stream f.block) code

theorem FollowsArgs.begins {code last : Array Instruction} {pc : Nat} {args : List Node}
    (h : FollowsArgs code pc args) (hb : Begins code last) : FollowsArgs last pc args := by
  obtain ⟨w, f, s, t, hs, hrun, hsize, hbegins⟩ := h
  exact ⟨w, f, s, t, hs, hrun, hsize, hbegins.trans hb⟩

/-! ## Procedures that answer to a call -/

/-- The procedure is there, accepts that many arguments, and is called by its name or constructs an object. -/
def Session.Answers (s : Session) (r : ProcRef) (name : String) (arity : Nat) : Prop :=
  ∃ p, s.procedure? r = some p ∧ p.accepts arity = true ∧ (p.name = name ∨ p.isConstructor = true)

theorem Session.Answers.widens {s t : Session} {r : ProcRef} {name : String} {arity : Nat}
    (h : s.Answers r name arity) (hst : s.Widens t) : t.Answers r name arity := by
  obtain ⟨p, hp, haccepts, hname⟩ := h
  obtain ⟨block, entry, locals, hq⟩ := hst.procedures r p hp
  exact ⟨_, hq, haccepts, hname⟩

/-- A procedure that is found in a table has the name and accepts the arguments. -/
theorem ProcedureTable.find?_eq_some {t : ProcedureTable} {name : String} {arity i : Nat}
    (h : t.find? name arity = some i) :
    ∃ p ∈ t.toList, p.index = i ∧ p.name = name ∧ p.accepts arity = true := by
  have hcandidate {p : Procedure}
      (hp : p ∈ t.toList.filter fun p => p.name == name && p.accepts arity) (hi : p.index = i) :
      ∃ p ∈ t.toList, p.index = i ∧ p.name = name ∧ p.accepts arity = true := by
    obtain ⟨hmem, hfits⟩ := List.mem_filter.mp hp
    simp only [Bool.and_eq_true, beq_iff_eq] at hfits
    exact ⟨p, hmem, hi, hfits⟩
  unfold ProcedureTable.find? at h
  dsimp only at h
  split at h
  · next p hp =>
    cases h
    exact hcandidate (List.mem_of_find?_eq_some hp) rfl
  · obtain ⟨p, hp, hi⟩ := Option.map_eq_some_iff.mp h
    exact hcandidate (List.mem_of_mem_head? hp) hi

namespace Session

variable {s : Session}

theorem answers_of_lookup (hs : s.Tidy) {ctx : Option Nat} {cls arity : Nat} {name : String}
    {m : MemberRef} (h : s.classes.lookupProcedure cls name arity ctx = .found m) :
    s.Answers ⟨some m.owner, m.index⟩ name arity := by
  obtain ⟨c, access, hc, hd⟩ := ClassTable.searchMember_found h
  obtain ⟨i, hi, heq⟩ := Option.map_eq_some_iff.mp hd
  cases heq
  obtain ⟨p, hp, hindex, hname, haccepts⟩ := ProcedureTable.find?_eq_some hi
  refine ⟨p, ?_, haccepts, .inl hname⟩
  rw [procedure?_some, hc, ← hindex]
  exact (hs.classes _ c hc).procedures.get?_index hp

end Session

namespace Lowering

variable {v : Sight} {r : ProcRef}

/-- What a call is resolved to answers to it. -/
theorem Sight.callTarget_answers (hs : v.session.Tidy) {name : String} {arity : Nat} {c : Cursor}
    (h : v.callTarget name arity c = .procedure r) : v.session.Answers r name arity := by
  unfold callTarget at h
  split at h
  · unfold rootCall at h
    dsimp only at h
    split at h
    · next m hm =>
      cases h
      obtain ⟨cls, _, hfound⟩ := Option.bind_eq_some_iff.mp hm
      exact Session.answers_of_lookup hs (MemberLookup.eq_found hfound)
    · split at h
      · next i hi =>
        cases h
        obtain ⟨p, hp, rfl, hname, haccepts⟩ := ProcedureTable.find?_eq_some hi
        exact ⟨p, hs.procedures.get?_index hp, haccepts, .inl hname⟩
      · split at h
        · cases h
        · next cls _ =>
          split at h
          · next i hi =>
            cases h
            obtain ⟨c, hc, hi⟩ := Option.bind_eq_some_iff.mp hi
            obtain ⟨p, hp, rfl⟩ := Option.map_eq_some_iff.mp hi
            have hfound := List.find?_some hp
            simp only [Bool.and_eq_true] at hfound
            refine ⟨p, ?_, hfound.2, .inr hfound.1⟩
            rw [Session.procedure?_some, hc]
            exact (hs.classes _ c hc).procedures.get?_index (List.mem_of_find?_eq_some hp)
          · cases h
  · unfold memberCall at h
    dsimp only at h
    split at h
    · cases h
    · split at h
      · cases h
      · split at h
        · cases h
        · cases h
        · next m hm =>
          split at h
          · cases h
          · split at h
            · cases h
            · cases h
              exact Session.answers_of_lookup hs hm

/-- A setter takes the value that is stored. -/
theorem setter?_answers (hs : v.session.Tidy) {cls : Option Nat} {property : Identifier}
    (h : setter? v cls property = some r) :
    v.session.Answers r (setterName property.name) 1 := by
  unfold setter? at h
  split at h
  · obtain ⟨m, hm, rfl⟩ := Option.map_eq_some_iff.mp h
    exact Session.answers_of_lookup hs (MemberLookup.eq_found hm)
  · cases h

end Lowering

/-! ## References -/

/-- What the instruction at a place of the code refers to is there, and fits. -/
inductive Session.Refers (source : String → List Node → Prop) (s : Session) (code : Array Instruction)
    (pc : Nat) (i : Instruction) : Prop where
  | known {r : ProcRef} {depth : Nat} {name : String} {args : List Node} : i.Calls r .callr depth →
      source name args → s.Answers r name args.length → FollowsArgs code pc args →
      Refers source s code pc i
  | late {n depth : Nat} {cls : Option Nat} {e : LateFunction} {args : List Node} :
      i.IsOf (.ternary .callr (.dynamic n) (.cls cls) (.int (Operand.clamp depth))) →
      s.lateFunctions[n]? = some e → source e.name args → e.arity = args.length →
      FollowsArgs code pc args → Refers source s code pc i
  | setter {r : ProcRef} {depth : Nat} {property : String} : i.Calls r .call depth →
      s.Answers r (setterName property) 1 → Refers source s code pc i
  | member {n block : Nat} {cls : Option Nat} :
      i.IsOf (.ternary .pushm (.dynamic n) (.cls cls) (.block block)) → n < s.lateVariables.size →
      Refers source s code pc i
  | bounce : i.opcode = .bounce → Refers source s code pc i

/-- Wherever code refers to something, it is there, and fits. -/
def Session.Sourced (source : String → List Node → Prop) (s : Session) : Prop :=
  ∀ code, s.HasCode code → ∀ (pc : Nat) i, code[pc]? = some i → i.isReference = true →
    s.Refers source code pc i

namespace Session

variable {source source' : String → List Node → Prop} {s t : Session} {code last : Array Instruction}
  {pc : Nat} {i : Instruction}

theorem Refers.mono (h : s.Refers source code pc i)
    (hsource : ∀ name args, source name args → source' name args) (hst : s.Widens t)
    (hlate : s.KeepsLate t) (hb : Begins code last) : t.Refers source' last pc i := by
  cases h with
  | known hi hs hp hargs => exact .known hi (hsource _ _ hs) (hp.widens hst) (hargs.begins hb)
  | late hi he hs harity hargs =>
    exact .late hi (hlate.functions _ _ he) (hsource _ _ hs) harity (hargs.begins hb)
  | setter hi hp => exact .setter hi (hp.widens hst)
  | member hi hn => exact .member hi (Nat.lt_of_lt_of_le hn hlate.members)
  | bounce hi => exact .bounce hi

namespace Sourced

/-- Code that was there still refers to what it did. -/
theorem persist (h : s.Sourced source) (hst : s.Widens t) (hlate : s.KeepsLate t)
    (hcode : ∀ code, t.HasCode code → code = #[] ∨ s.HasCode code) : t.Sourced source := by
  intro code hc pc i hi href
  rcases hcode code hc with rfl | hc
  · cases hi
  · exact (h code hc pc i hi href).mono (fun _ _ => id) hst hlate (.refl code)

theorem writes {block : Nat} {l : Array Instruction} (h : s.Sourced source) (hst : s.Widens t)
    (hlate : s.KeepsLate t) (hw : Writes block l s t)
    (hl : ∀ (n : Nat) i, l[n]? = some i → i.isReference = true →
      t.Refers source (s.stream block ++ l) ((s.stream block).size + n) i) : t.Sourced source := by
  intro code hc pc i hi href
  rcases hc.before_writes hw with hc | ⟨hold, rfl⟩
  · exact (h code hc pc i hi href).mono (fun _ _ => id) hst hlate (.refl code)
  · rw [Array.getElem?_append] at hi
    split at hi
    · exact (h _ hold pc i hi href).mono (fun _ _ => id) hst hlate (.append _ l)
    · next hle =>
      have hpc : (s.stream block).size + (pc - (s.stream block).size) = pc := by omega
      exact hpc ▸ hl _ i hi href

theorem patched {block pending target : Nat} {i j : Instruction} (h : s.Sourced source)
    (hst : s.Widens (s.replaceCode block pending j)) (hlate : s.KeepsLate (s.replaceCode block pending j))
    (hi : (s.stream block)[pending]? = some i) (hj : i.patch target = .ok j) :
    (s.replaceCode block pending j).Sourced source := by
  intro code hc pc k hk href
  rcases hc.before_replaceCode with hc | ⟨hold, rfl⟩
  · exact (h code hc pc k hk href).mono (fun _ _ => id) hst hlate (.refl code)
  · rw [Array.getElem?_setIfInBounds] at hk
    split at hk
    · -- The patched instruction is a jump.
      split at hk
      · cases hk
        rw [Instruction.isStandalone_of_patch hj] at href
        cases href
      · cases hk
    · exact (h _ hold pc k hk href).mono (fun _ _ => id) hst hlate (.patched hi hj)

end Sourced

end Session

/-! ## Lowering keeps references -/

namespace Lowering

variable {source : String → List Node → Prop} {w : Bool} {f : Frame} {s : State}

theorem not_all_standalone : ¬ ∀ i : Instruction, i.IsStandalone := by
  intro h
  cases h (.bare .call)

/-- An emitted instruction refers to what is there, if it refers to anything. -/
theorem sourced_emit {i : Instruction} {span : Span} {m : Lower Nat} (hr : Ready w f s)
    (hm : m f s = emit i span f s) (h : s.session.Sourced source)
    (hi : ∀ (j : Instruction) (t : Session), j.IsOf i → s.session.Advances t →
      t.Refers source (s.session.stream f.block ++ #[j]) (s.session.stream f.block).size j) :
    (final (m f s)).Sourced source := by
  have hcourse : Course True Anything f s (emit i span) :=
    Composed.emit (fun _ => trivial) span f s fun _ => hr
  have hadvances := hcourse.advances hr
  obtain ⟨debug, hw⟩ := (Mild.emits_emitStepping i span []).writes hr.canEmit
  rw [hm]
  refine h.writes hadvances.toWidens hadvances.toKeepsLate hw fun n j hj _ => ?_
  obtain ⟨rfl, rfl⟩ : n = 0 ∧ { i with debug } = j := by
    rw [Array.getElem?_singleton] at hj
    split at hj
    · next hn => exact ⟨hn, Option.some.inj hj⟩
    · cases hj
  exact hi _ _ ⟨debug, rfl⟩ hadvances

/-- Lowering keeps all references, however it ends. -/
def sourcing (w : Bool) (source : String → List Node → Prop) : Keeper w where
  source
  holds _ s := s.Sourced source
  leaves s := s.Sourced source
  left h := h
  standalone h hm hs := by
    have hadvances := hm.advances h.toReady
    obtain ⟨l, hl, hw⟩ := hm.wrote not_all_standalone
    refine hs.writes hadvances.toWidens hadvances.toKeepsLate hw fun n i hi href => ?_
    rw [hl i (Array.mem_of_getElem? hi)] at href
    cases href
  known {_ f _ t _ call c r} h hsource htarget hrun ht hst hs := by
    rw [final_lowerKnownCall]
    refine sourced_emit ht.toReady rfl hs fun j u hj hu => ?_
    have hanswers := (Sight.callTarget_answers h.tidy htarget).widens hst.toWidens
    exact .known hj hsource (hanswers.widens hu.toWidens) ⟨w, f, _, t, h.toPrimed, hrun, rfl, .append _ _⟩
  late {_ f s t call} c h hsource hrun ht hs := by
    have hcourse := Composed.enterLateCall (D := True) (P := fun _ => False) call c f t fun _ => ht.toReady
    obtain ⟨l, hl, hw⟩ := hcourse.wrote fun hall => hall (.bare .call)
    obtain rfl : l = #[] := Array.eq_empty_iff_forall_not_mem.mpr hl
    have hstream := Session.stream_writes hw ht.canEmit
    have hadvances := hcourse.advances ht.toReady
    have hsourced := hs.writes hadvances.toWidens hadvances.toKeepsLate hw fun n i hi => by cases hi
    rw [lowerLateCall_eq, run_bind]
    cases henter : enterLateCall call c f t with
    | error e u =>
      rw [henter] at hsourced
      exact hsourced
    | ok i u =>
      rw [henter] at hsourced hstream
      obtain ⟨e, he, hname, harity⟩ := enterLateCall_ok henter
      have hemit := sourced_emit (m := emitLateCall i c.depth call.span)
        ((hcourse.proceeds ht.toPrimed henter).1.toReady) rfl hsourced fun j v hj hv => ?_
      · dsimp only
        rw [run_bind]
        revert hemit
        cases emitLateCall i c.depth call.span f u with
        | ok => exact id
        | error => exact id
      · change u.session.stream f.block = _ at hstream
        rw [hstream, Array.append_empty]
        exact .late hj (hv.functions _ _ he) (hname ▸ hsource) harity
          ⟨w, f, s, t, h.toPrimed, hrun, rfl, .append _ _⟩
  setter depth span h hset hs := by
    refine sourced_emit h.toReady rfl hs fun j u hj hu => ?_
    exact .setter hj ((setter?_answers h.tidy hset).widens hu.toWidens)
  member cls span h hn hs := by
    refine sourced_emit h.toReady rfl hs fun j u hj hu => ?_
    exact .member hj (Nat.lt_of_lt_of_le hn hu.members)
  patch {_ f _ _ _ _ _} _ h hi hj hs := by
    have hchange := Change.patch (K := fun _ => True) (f := f) hi hj trivial
    exact hs.patched hchange.widens (.change hchange) hi hj
  openBlock {_ f s} dialect _ h hs := by
    have hopen := Session.Advances.openBlock h.stands.placed dialect
    refine hs.persist hopen.toWidens hopen.toKeepsLate fun code hcode => ?_
    exact hcode.before_opening (s := s.session) rfl fun _ _ _ => s.session.text_openBlock_cases f dialect
  bounce span _ h _ _ _ hs := by
    refine sourced_emit h.toReady rfl hs fun j u hj hu => ?_
    obtain ⟨debug, rfl⟩ := hj
    exact .bounce rfl
  openProcedure {_ f s} p message _ h hs := by
    have hopen := Session.Advances.openProcedure h.stands.placed p message
    refine hs.persist hopen.toWidens hopen.toKeepsLate fun code hcode => ?_
    refine hcode.before_opening (s.session.watch_openProcedure f p message) fun _ _ _ => ?_
    exact s.session.text_openProcedure_cases f p message
  finish {_ _ s} r entry locals n _ _ hs := by
    have hblocks := Session.blocks_modifyProcedure (s.setLocals n) r fun p => { p with entry, locals }
    have hwidens : s.Widens (s.setLocals n) := .ofTables rfl rfl rfl
    have hlate : s.KeepsLate (s.setLocals n) := .ofSame rfl rfl
    refine hs.persist (hwidens.trans (Session.widens_modifyProcedure _ r fun p => ⟨p.block, _, _, rfl⟩))
      (hlate.trans (.modifyProcedure _ r _)) fun code hcode => ?_
    refine hcode.before_opening ?_ fun id k code hid => .inr ?_
    · unfold Session.modifyProcedure
      split <;> rfl
    · rw [Session.text_of_blocks hblocks] at hid
      exact hid
  setLocals {s} n hs := by
    refine hs.persist (t := s.setLocals n) (.ofTables rfl rfl rfl) (.ofSame rfl rfl) fun code hcode => ?_
    exact hcode.before_opening (s := s) rfl fun _ _ _ => .inr
  addClass {_ s c classes} _ hsymbols happend hs := by
    have hindexed : c.symbols.Indexed := by
      rw [hsymbols]
      exact SymbolTable.indexed_empty
    refine hs.persist (Session.widens_appendClass hindexed happend) (.ofSame rfl rfl) fun code hcode => ?_
    exact hcode.before_opening (s := s) rfl fun _ _ _ => .inr

end Lowering

end Diglot
