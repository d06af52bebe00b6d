import Diglot.Proofs.Anchors.Instance
import Diglot.Proofs.Origins.Calls

/-! # Procedures with default values, and which of them a call means

Default values let several procedures of a table accept the same call.

* `ProcedureTable.Prefers`: the chosen procedure has as many parameters as the call has arguments, if any
  eligible one does; among those that are equal in this, it is the first.
* Whatever a call is resolved to accepts it, and is preferred among the procedures of its name
  (`Lowering.Sight.callTarget_prefers`), unless it is a constructor that was found by the name of its class
  alone: of these the first that accepts the call is taken (`Lowering.first_constructor_taken`).
-/

set_option autoImplicit false

namespace Diglot

theorem Procedure.accepts_of_length {p : Procedure} {arity : Nat} (h : p.args.length = arity) :
    p.accepts arity = true := by
  unfold accepts
  rw [h, Bool.and_eq_true, decide_eq_true_iff, decide_eq_true_iff, ← h]
  exact ⟨List.length_filter_le _ _, Nat.le_refl _⟩

namespace ProcedureTable

variable {t : ProcedureTable} {p q : Procedure} {name : String} {arity i : Nat}

/-- The first procedure of a kind comes before all others of it. -/
theorem Numbered.index_le (h : t.Numbered) {kind : Procedure → Bool} (hp : t.toList.find? kind = some p)
    (hq : q ∈ t.toList) (hkind : kind q = true) : p.index ≤ q.index := by
  obtain ⟨-, i, hi, rfl, hbefore⟩ := List.find?_eq_some_iff_getElem.mp hp
  obtain ⟨j, hj, rfl⟩ := List.mem_iff_getElem.mp hq
  have hindex (k : Nat) (hk : k < t.toList.length) : (t.toList[k]).index = k := by
    refine h k _ ?_
    rw [get?, ← Array.getElem?_toList]
    exact List.getElem?_eq_getElem hk
  rw [hindex, hindex]
  by_contra hlt
  have hnone := hbefore j (by omega)
  rw [hkind] at hnone
  cases hnone

/-- The procedure of the name that a call with `arity` arguments means. -/
structure Prefers (t : ProcedureTable) (name : String) (arity : Nat) (p : Procedure) : Prop where
  mem : p ∈ t.toList
  named : p.name = name
  accepts : p.accepts arity = true
  /-- A procedure with default values is taken only where there is no exact one. -/
  exact : p.args.length ≠ arity → ∀ q ∈ t.toList, q.name = name → q.args.length ≠ arity
  first : ∀ q ∈ t.toList, q.name = name → q.accepts arity = true →
    (q.args.length = arity ↔ p.args.length = arity) → p.index ≤ q.index

theorem Numbered.prefers (h : t.Numbered) (hi : t.find? name arity = some i) :
    ∃ p, t.get? i = some p ∧ t.Prefers name arity p := by
  unfold ProcedureTable.find? at hi
  dsimp only at hi
  rw [List.find?_filter] at hi
  split at hi
  · next p hp =>
    cases hi
    have hmem := List.mem_of_find?_eq_some hp
    have hkind := List.find?_some hp
    simp only [Bool.and_eq_true, beq_iff_eq, decide_eq_true_eq] at hkind
    obtain ⟨⟨hname, haccepts⟩, hexact⟩ := hkind
    refine ⟨p, h.get?_index hmem, hmem, hname, haccepts, fun hne => absurd hexact hne, ?_⟩
    intro q hq hqname hqaccepts hsame
    exact h.index_le hp hq (by simp [hqname, hqaccepts, hsame.mpr hexact])
  · next hnone =>
    obtain ⟨p, hp, rfl⟩ := Option.map_eq_some_iff.mp hi
    rw [List.head?_filter] at hp
    have hmem := List.mem_of_find?_eq_some hp
    have hkind := List.find?_some hp
    simp only [Bool.and_eq_true, beq_iff_eq] at hkind
    obtain ⟨hname, haccepts⟩ := hkind
    refine ⟨p, h.get?_index hmem, hmem, hname, haccepts, fun _ q hq hqname hexact => ?_, ?_⟩
    · exact List.find?_eq_none.mp hnone q hq
        (by simp [hqname, Procedure.accepts_of_length hexact, hexact])
    · intro q hq hqname hqaccepts _
      exact h.index_le hp hq (by simp [hqname, hqaccepts])

/-- The first constructor of whatever name is the one that is preferred by its name if it has as many parameters
as the call has arguments, or no procedure of the name has. -/
theorem Numbered.first_constructor_iff (h : t.Numbered)
    (hp : (t.toList.find? fun x => x.isConstructor && x.accepts arity) = some p) (hname : p.name = name)
    (hq : t.Prefers name arity q) (hctor : q.isConstructor = true) :
    q.index = p.index ↔ p.args.length = arity ∨ ∀ x ∈ t.toList, x.name = name → x.args.length ≠ arity := by
  have hmem := List.mem_of_find?_eq_some hp
  have haccepts : p.accepts arity = true := by
    have hkind := List.find?_some hp
    simp only [Bool.and_eq_true] at hkind
    exact hkind.2
  refine ⟨fun hsame => ?_, fun hexact => ?_⟩
  · obtain rfl : q = p := by
      have hget := h.get?_index hq.mem
      rw [hsame, h.get?_index hmem] at hget
      exact (Option.some.inj hget).symm
    by_cases hlength : q.args.length = arity
    · exact .inl hlength
    · exact .inr (hq.exact hlength)
  · have hbefore : p.index ≤ q.index := h.index_le hp hq.mem (by simp [hctor, hq.accepts])
    have hlike : p.args.length = arity ↔ q.args.length = arity := by
      rcases hexact with hlength | hnone
      · refine ⟨fun _ => ?_, fun _ => hlength⟩
        by_contra hne
        exact hq.exact hne p hmem hname hlength
      · exact ⟨fun hlength => absurd hlength (hnone p hmem hname),
          fun hlength => absurd hlength (hnone q hq.mem hq.named)⟩
    exact Nat.le_antisymm (hq.first p hmem hname haccepts hlike) hbefore

end ProcedureTable

/-- The table that a reference points into. -/
def Session.tableOf? (s : Session) (r : ProcRef) : Option ProcedureTable :=
  match r.classScope with
  | none => some s.procedures
  | some cls => (s.classes.get? cls).map Class.procedures

/-- What is found along the base classes is what the lookup in the table of its class finds. -/
theorem ClassTable.found_of_lookup {t : ClassTable} {cls arity : Nat} {name : String} {ctx : Option Nat}
    {m : MemberRef} (h : t.lookupProcedure cls name arity ctx = .found m) :
    ∃ c, t.get? m.owner = some c ∧ c.procedures.find? name arity = some m.index := by
  obtain ⟨c, access, hc, hd⟩ := searchMember_found h
  obtain ⟨i, hi, heq⟩ := Option.map_eq_some_iff.mp hd
  cases heq
  exact ⟨c, hc, hi⟩

/-- The tables of a tidy session are numbered. -/
theorem Session.Tidy.numbered {s : Session} (hs : s.Tidy) {r : ProcRef} {t : ProcedureTable}
    (ht : s.tableOf? r = some t) : t.Numbered ∧ s.procedure? r = t.get? r.index := by
  obtain ⟨owner, i⟩ := r
  cases owner with
  | none =>
    cases ht
    exact ⟨hs.procedures, rfl⟩
  | some cls =>
    obtain ⟨k, hk, rfl⟩ := Option.map_eq_some_iff.mp ht
    refine ⟨(hs.classes cls k hk).procedures, ?_⟩
    rw [Session.procedure?_some, hk]
    rfl

namespace Lowering

/-- A call at the root of a chain names neither a method nor a procedure that accepts it, which leaves the
constructors of the class of that name. -/
structure Sight.OnlyClassNamed (v : Sight) (name : String) (arity : Nat) (c : Cursor) : Prop where
  isRoot : c.depth = 0
  noMethod : (v.frame.scope.classScope.bind fun cls =>
    (v.session.classes.lookupProcedure cls name arity v.frame.scope.classScope).found?) = none
  noProcedure : v.session.procedures.find? name arity = none

variable {v : Sight} {r : ProcRef} {name : String} {arity : Nat} {c : Cursor}

/-- On every other route the table of the procedure was searched for the name. -/
theorem Sight.find?_of_callTarget (h : v.callTarget name arity c = .procedure r)
    (hnamed : ¬ v.OnlyClassNamed name arity c) :
    ∃ t, v.session.tableOf? r = some t ∧ t.find? name arity = some r.index := by
  have hmember {cls : Nat} {ctx : Option Nat} {m : MemberRef}
      (hm : v.session.classes.lookupProcedure cls name arity ctx = .found m) :
      ∃ t, v.session.tableOf? ⟨some m.owner, m.index⟩ = some t ∧ t.find? name arity = some m.index := by
    obtain ⟨k, hk, hfind⟩ := ClassTable.found_of_lookup hm
    exact ⟨k.procedures, congrArg (Option.map Class.procedures) hk, hfind⟩
  unfold callTarget at h
  split at h
  · next hroot =>
    unfold rootCall at h
    dsimp only at h
    split at h
    · next m hm =>
      cases h
      obtain ⟨cls, -, hfound⟩ := Option.bind_eq_some_iff.mp hm
      exact hmember (MemberLookup.eq_found hfound)
    · next hnone =>
      split at h
      · next i hi =>
        cases h
        exact ⟨_, rfl, hi⟩
      · next hprocedure => exact absurd ⟨hroot, hnone, hprocedure⟩ hnamed
  · unfold memberCall at h
    dsimp only at h
    split at h
    · cases h
    · split at h
      · cases h
      · split at h
        · cases h
        · cases h
        · next m hm =>
          split at h
          · cases h
          · split at h
            · cases h
            · cases h
              exact hmember hm

/-- By the name of a class alone its first constructor that accepts the call is found. -/
theorem Sight.first_of_callTarget (h : v.callTarget name arity c = .procedure r)
    (hnamed : v.OnlyClassNamed name arity c) :
    ∃ cls t p, v.session.classes.indexOf? name = some cls ∧ r = ⟨some cls, p.index⟩ ∧
      v.session.tableOf? r = some t ∧
        (t.toList.find? fun q => q.isConstructor && q.accepts arity) = some p := by
  unfold callTarget rootCall at h
  dsimp only at h
  rw [if_pos hnamed.isRoot, hnamed.noMethod, hnamed.noProcedure] at h
  dsimp only at h
  split at h
  · cases h
  · next cls hcls =>
    split at h
    · next i hi =>
      cases h
      obtain ⟨k, hk, hi⟩ := Option.bind_eq_some_iff.mp hi
      obtain ⟨p, hp, rfl⟩ := Option.map_eq_some_iff.mp hi
      exact ⟨cls, k.procedures, p, hcls, rfl, congrArg (Option.map Class.procedures) hk, hp⟩
    · cases h

/-- What a call is resolved to accepts it, and is preferred among all procedures of the name in its table, so that
two calls that are alike choose the same procedure of a table. A constructor that is found by the name of its
class alone is the first of its class that accepts the call; behind the name of the class, the same call chooses
it too if it is exact, or no procedure of the name is. -/
theorem Sight.callTarget_prefers (hs : v.session.Tidy) (h : v.callTarget name arity c = .procedure r) :
    ∃ t p, v.session.tableOf? r = some t ∧ v.session.procedure? r = some p ∧ p.accepts arity = true ∧
      (¬ v.OnlyClassNamed name arity c → t.Prefers name arity p ∧
        ∀ d r', ¬ v.OnlyClassNamed name arity d → v.callTarget name arity d = .procedure r' →
          r'.classScope = r.classScope → r' = r) ∧
      (v.OnlyClassNamed name arity c →
        v.session.classes.indexOf? name = r.classScope ∧ p.isConstructor = true ∧
          (∀ q ∈ t.toList, q.isConstructor = true → q.accepts arity = true → p.index ≤ q.index) ∧
          ∀ d cls r' q, r.classScope = some cls → d.AtClass cls → v.callTarget name arity d = .procedure r' →
            v.session.procedure? r' = some q → p.name = name → q.isConstructor = true →
              (r' = r ↔ r'.classScope = r.classScope ∧
                (p.args.length = arity ∨ ∀ x ∈ t.toList, x.name = name → x.args.length ≠ arity))) := by
  by_cases hnamed : v.OnlyClassNamed name arity c
  · obtain ⟨cls, t, p, hcls, rfl, ht, hp⟩ := first_of_callTarget h hnamed
    obtain ⟨hnumbered, hprocedure⟩ := hs.numbered ht
    have hkind := List.find?_some hp
    simp only [Bool.and_eq_true] at hkind
    refine ⟨t, p, ht, hprocedure.trans (hnumbered.get?_index (List.mem_of_find?_eq_some hp)), hkind.2,
      fun hnot => absurd hnamed hnot, fun _ => ⟨hcls, hkind.1, fun q hq hctor haccepts => ?_, ?_⟩⟩
    · exact hnumbered.index_le hp hq (by simp [hctor, haccepts])
    · intro d cls' r' q _ hd htarget hq hname hctor
      obtain ⟨t', ht', hfind⟩ := find?_of_callTarget htarget fun hroot => hd.depth hroot.isRoot
      obtain ⟨owner, i⟩ := r'
      refine ⟨fun hsame => ?_, fun hsame => ?_⟩
      · cases hsame
        obtain rfl : t' = t := Option.some.inj (ht'.symm.trans ht)
        obtain ⟨q', hget, hprefers⟩ := hnumbered.prefers hfind
        obtain rfl : q' = q := Option.some.inj (hget.symm.trans (hprocedure.symm.trans hq))
        refine ⟨rfl, (hnumbered.first_constructor_iff hp hname hprefers hctor).mp ?_⟩
        exact hnumbered p.index q' hget
      · obtain ⟨howner, hexact⟩ := hsame
        obtain rfl : owner = some cls := howner
        obtain rfl : t' = t := Option.some.inj (ht'.symm.trans ht)
        obtain ⟨q', hget, hprefers⟩ := hnumbered.prefers hfind
        obtain rfl : q' = q :=
          Option.some.inj (hget.symm.trans ((hs.numbered (r := ⟨some cls, i⟩) ht').2.symm.trans hq))
        have hindex := (hnumbered.first_constructor_iff hp hname hprefers hctor).mpr hexact
        rw [hnumbered i q' hget] at hindex
        rw [hindex]
  · obtain ⟨t, ht, hfind⟩ := find?_of_callTarget h hnamed
    obtain ⟨hnumbered, hprocedure⟩ := hs.numbered ht
    obtain ⟨p, hget, hprefers⟩ := hnumbered.prefers hfind
    refine ⟨t, p, ht, hprocedure.trans hget, hprefers.accepts, fun _ => ⟨hprefers, fun d r' hd htarget howner => ?_⟩,
      fun hroot => absurd hroot hnamed⟩
    obtain ⟨t', ht', hfind'⟩ := find?_of_callTarget htarget hd
    obtain ⟨_, i⟩ := r
    obtain ⟨_, j⟩ := r'
    cases howner
    obtain rfl : t' = t := Option.some.inj (ht'.symm.trans ht)
    have hindex : j = i := Option.some.inj (hfind'.symm.trans hfind)
    rw [hindex]

theorem sightFrom_session (f : Frame) (s : Session) : (sightFrom f s).session = s := rfl

/-- A function, method or constructor with the parameter `a` and maybe a second one that has a default value. -/
def sampleOverload (name : String) (isConstructor hasSecond : Bool) : Function :=
  let a : Parameter := ⟨"a", .var, none, .nil⟩
  let b : Parameter := ⟨"b", .var, some (.literal .int "1" .nil), .nil⟩
  { name, params := if hasSecond then [a, b] else [a], returns := .var, body := [], attributes := []
    isStatic := false, isConstructor, access := .isPublic, span := .nil }

/-- Declares the procedures `f(a, b = 1)` and `f(a)`, and a class `C` with such constructors. -/
def overloadUnit : List Node :=
  let cls : Node := .classDecl
    { name := "C", base := none, members := []
      methods := [sampleOverload "C" true true, sampleOverload "C" true false], attributes := [], span := .nil }
  [.function (sampleOverload "f" false true), .function (sampleOverload "f" false false), cls]

def sampleOverloads : Session := (Session.compile (.new {}) overloadUnit .associative).2

theorem sampleOverloads_tidy : sampleOverloads.Tidy :=
  ((Session.fit_new {}).compile overloadUnit .associative).tidy

/-- The call `f(1)` means the second of the two procedures. -/
theorem exact_overload_preferred :
    let v := sightFrom sampleFrame sampleOverloads
    v.session.Tidy ∧ v.callTarget "f" 1 (.start true) = .procedure ⟨none, 1⟩ ∧
      ∃ t p, v.session.tableOf? ⟨none, 1⟩ = some t ∧ v.session.procedure? ⟨none, 1⟩ = some p ∧
        t.Prefers "f" 1 p ∧ p.args.length = 1 := by
  intro v
  have hsession : v.session = sampleOverloads := sightFrom_session _ _
  have htidy : v.session.Tidy := hsession ▸ sampleOverloads_tidy
  have htarget : v.callTarget "f" 1 (.start true) = .procedure ⟨none, 1⟩ := by decide +kernel
  have hnamed : ¬ v.OnlyClassNamed "f" 1 (.start true) := by
    intro h
    have hsome : (v.session.procedures.find? "f" 1).isSome = true := by decide +kernel
    rw [h.noProcedure] at hsome
    cases hsome
  obtain ⟨t, p, ht, hp, -, hprefers, -⟩ := Sight.callTarget_prefers htidy htarget
  refine ⟨htidy, htarget, t, p, ht, hp, (hprefers hnamed).1, ?_⟩
  have hlength : (v.session.procedure? ⟨none, 1⟩).map (fun p => p.args.length) = some 1 := by decide +kernel
  rw [hp] at hlength
  exact Option.some.inj hlength

/-- Of two public constructors named `C`, the call `C(1)` chooses the one with a default value, and `C.C(1)` the
exact one. -/
theorem first_constructor_taken :
    let v := sightFrom sampleFrame sampleOverloads
    let behind : Cursor := { Cursor.start false with type := .scalar 12, depth := 1, anchor := some 12 }
    let shape (r : ProcRef) : Option (String × Bool × Access × Nat) :=
      (v.session.procedure? r).map fun p => (p.name, p.isConstructor, p.access, p.args.length)
    v.session.classes.indexOf? "C" = some 12 ∧
      v.callTarget "C" 1 (.start true) = .procedure ⟨some 12, 0⟩ ∧
      v.callTarget "C" 1 behind = .procedure ⟨some 12, 1⟩ ∧
      shape ⟨some 12, 0⟩ = some ("C", true, .isPublic, 2) ∧ shape ⟨some 12, 1⟩ = some ("C", true, .isPublic, 1) := by
  decide +kernel

end Lowering

end Diglot
