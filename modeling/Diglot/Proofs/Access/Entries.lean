import Diglot.Proofs.Access.Stores
import Diglot.Proofs.Spare.Session

/-! # Static members and their entries, one to one

In a session all of whose classes are declared by units, the static members of classes and the members that
stand in the table of the first block are the same symbols twice. The n-th static member of a class belongs to
the n-th entry of that class (`Session.Pairs`).

* `Paired`: every class has the same static members in both tables, and no other member stands in the first
  block.
* `Arises`: the session is at rest, in the course of a unit, or in the course of a watch expression.
* `Arises.entries_correspond`: the pairs are a one-to-one correspondence, a lookup of a static member ends at
  the entry of that very member, and a lookup behind the classes never ends at an entry.
-/

set_option autoImplicit false

namespace Diglot

open Lowering

/-! ## Counting up to a position -/

section
variable {α : Type} {l : List α} {p : α → Bool} {x : α} {i j n : Nat}

/-- The number of elements in front of a position that satisfy a condition. -/
def rank (l : List α) (p : α → Bool) (i : Nat) : Nat := (l.take i).countP p

theorem rank_lt (hx : l[i]? = some x) (hp : p x = true) (hij : i < j) : rank l p i < rank l p j := by
  have hnext : l.take (i + 1) = l.take i ++ [x] := by
    rw [List.take_add_one, hx]
    rfl
  have hle : (l.take (i + 1)).countP p ≤ (l.take j).countP p :=
    (List.take_sublist_take_left hij).countP_le
  rw [hnext, List.countP_append, List.countP_singleton, if_pos hp] at hle
  exact hle

theorem rank_lt_iff {y : α} (hx : l[i]? = some x) (hp : p x = true) (hy : l[j]? = some y) (hq : p y = true) :
    rank l p i < rank l p j ↔ i < j := by
  refine ⟨fun hlt => ?_, rank_lt hx hp⟩
  rcases Nat.lt_trichotomy i j with h | rfl | h
  · exact h
  · exact absurd hlt (Nat.lt_irrefl _)
  · exact absurd (rank_lt hy hq h) (Nat.lt_asymm hlt)

theorem eq_of_rank_eq {y : α} (hx : l[i]? = some x) (hp : p x = true) (hy : l[j]? = some y) (hq : p y = true)
    (h : rank l p i = rank l p j) : i = j := by
  rcases Nat.lt_trichotomy i j with hlt | heq | hlt
  · exact absurd h (Nat.ne_of_lt (rank_lt hx hp hlt))
  · exact heq
  · exact absurd h.symm (Nat.ne_of_lt (rank_lt hy hq hlt))

/-- The elements that satisfy the condition are counted by their ranks. -/
theorem getElem?_filter_iff :
    (l.filter p)[n]? = some x ↔ ∃ i, l[i]? = some x ∧ p x = true ∧ rank l p i = n := by
  induction l generalizing n with
  | nil => simp
  | cons a rest ih =>
    have hzero : rank (a :: rest) p 0 = 0 := rfl
    have hsucc (i : Nat) : rank (a :: rest) p (i + 1) = rank rest p i + if p a then 1 else 0 := by
      simp only [rank, List.take_succ_cons, List.countP_cons]
    cases ha : p a with
    | false =>
      rw [List.filter_cons_of_neg (by simp [ha]), ih]
      constructor
      · rintro ⟨i, hi, hp, hr⟩
        exact ⟨i + 1, hi, hp, by rw [hsucc, hr, ha]; rfl⟩
      · rintro ⟨i, hi, hp, hr⟩
        cases i with
        | zero =>
          cases hi
          rw [ha] at hp
          cases hp
        | succ i => exact ⟨i, hi, hp, by rw [hsucc, ha] at hr; exact hr⟩
    | true =>
      rw [List.filter_cons_of_pos ha]
      cases n with
      | zero =>
        constructor
        · intro h
          cases h
          exact ⟨0, rfl, ha, hzero⟩
        · rintro ⟨i, hi, -, hr⟩
          cases i with
          | zero => exact hi
          | succ i =>
            rw [hsucc, ha] at hr
            cases hr
      | succ n =>
        rw [List.getElem?_cons_succ, ih]
        constructor
        · rintro ⟨i, hi, hp, hr⟩
          exact ⟨i + 1, hi, hp, by rw [hsucc, hr, ha]; rfl⟩
        · rintro ⟨i, hi, hp, hr⟩
          cases i with
          | zero => cases hzero.symm.trans hr
          | succ i => exact ⟨i, hi, hp, by rw [hsucc, ha] at hr; exact Nat.succ.inj hr⟩

end

namespace Session

variable {s t : Session}

/-! ## The same symbols twice -/

/-- Every class has the same static members in its own table and in that of the first block, where no other
member stands. -/
structure Paired (s : Session) : Prop where
  same : ∀ cls, s.entries cls = s.statics cls
  static : ∀ x ∈ s.symbolsOf (.block 0), x.isMember = true → x.isStatic = true

theorem Paired.congr (h : s.Paired) (hsymbol : t.symbol? = s.symbol?) : t.Paired := by
  refine ⟨fun cls => ?_, ?_⟩
  · unfold entries statics
    rw [picked_congr hsymbol]
    exact h.same cls
  · rw [symbolsOf_congr hsymbol]
    exact h.static

/-- A variable that is no member makes no difference. -/
theorem Paired.enterLocal (h : s.Paired) {id : Nat} (hid : (s.header? id).isSome) {x : Symbol}
    (hx : x.isStatic = false) (hmember : id = 0 → x.isMember = false) : (s.enterLocal id x).Paired := by
  refine ⟨fun cls => ?_, fun y hy hy' => ?_⟩
  · rw [entries_enterLocal x hid, statics_enterLocal x hid, if_neg, List.append_nil]
    · exact h.same cls
    · rintro ⟨-, hstatic⟩
      rw [Symbol.isStaticIn, hx] at hstatic
      cases hstatic
  · rcases mem_enterLocal hid hy with hy | ⟨heq, n, rfl⟩
    · exact h.static y hy hy'
    · cases (hmember (Owner.block.inj heq).symm).symm.trans hy'

/-- A member gets into the first block only as the entry of a static one. -/
theorem mem_enterMember {cls : Nat} {x y : Symbol} (hfirst : x.isStatic = true → (s.header? 0).isSome)
    (hy : y ∈ (s.enterMember cls x).symbolsOf (.block 0)) :
    y ∈ s.symbolsOf (.block 0) ∨ x.isStatic = true ∧ ∃ n, y = { x with block := 0, position := n } := by
  unfold enterMember at hy
  dsimp only at hy
  split at hy
  · next hstatic =>
    let u : Session := { s with classes := s.classes.appendSymbol cls x }
    have hheader : (u.header? 0).isSome := hfirst hstatic
    rcases mem_enterLocal hheader hy with hy | ⟨-, n, rfl⟩
    · exact .inl hy
    · exact .inr ⟨hstatic, n, rfl⟩
  · exact .inl hy

end Session

namespace Lowering

variable {f g : Frame} {s t : Session}

/-- While a unit is lowered, no member but static ones gets into the first block. -/
theorem invariant_static : Invariant fun _ s => s.isWatching = false ∧
    ∀ x ∈ s.symbolsOf (.block 0), x.isMember = true → x.isStatic = true where
  change := by
    rintro K f s t ⟨hw, hs⟩ hc
    refine ⟨hc.isWatching_eq.trans hw, ?_⟩
    rcases hc.sameNames_or_canDeclare with hsame | ⟨d, hcan, rfl⟩
    · rw [Session.symbolsOf_congr (Session.symbol?_of_tables hsame.classes hsame.headers)]
      exact hs
    intro y hy hmember
    obtain ⟨cls, counters, -, hproc, hscope, -, heq⟩ | ⟨counters, hcase, hblock, heq⟩ := s.declare_cases f d
    · have hfirst : (s.declared f d).isStatic = true → (s.header? 0).isSome := by
        intro hstatic
        unfold Session.CanDeclare at hcan
        have hd : d.isStatic = true := hstatic
        simp only [bucketOf, hw, hproc, hscope, Scope.function, hd] at hcan
        exact (Session.header?_isSome s 0).trans (hcan.2 trivial)
      rw [heq] at hy
      rcases Session.mem_enterMember (s := { s with counters }) hfirst hy with hy | ⟨hstatic, n, rfl⟩
      · exact hs y hy hmember
      · exact hstatic
    · rw [heq] at hy
      have hheader : (s.header? f.block).isSome := (Session.header?_isSome s f.block).trans (hblock hcan)
      rcases Session.mem_enterLocal (s := { s with counters }) hheader hy with hy | ⟨-, n, rfl⟩
      · exact hs y hy hmember
      · -- what is declared outside of class bodies is no member
        have hlocals : f.DeclaresLocals := by
          intro hnone
          rcases hcase with hw' | hproc | hcls
          · cases hw.symm.trans hw'
          · rw [hnone] at hproc
            cases hproc
          · exact hcls
        cases hmember.symm.trans (isMember_declared hlocals s d)
  opens := by
    rintro f g s t close ⟨hw, hs⟩ ho
    exact ⟨ho.isWatching_eq.trans hw, by rwa [Session.symbolsOf_congr ho.symbol?_eq]⟩
  closes := by
    rintro K f g s t u v close - ho - ⟨hw, hu⟩ hv
    exact ⟨(ho.close_eq hv).1.trans hw, by rwa [Session.symbolsOf_congr (ho.symbol?_close hv)]⟩

/-- A unit gives every class the static members it had before or enters them twice. -/
theorem Mirroring.paired (h : Mirroring s f t) (hs : s.Paired) (hw : s.isWatching = false)
    (hstatic : ∀ x ∈ t.symbolsOf (.block 0), x.isMember = true → x.isStatic = true) : t.Paired := by
  refine ⟨fun cls => ?_, hstatic⟩
  by_cases hcls : cls < s.classes.size
  · obtain ⟨hentries, hstatics⟩ := h.old cls hcls
    rw [hentries, hstatics]
    exact hs.same cls
  · have hyoung := h.young cls (Nat.le_of_not_lt hcls)
    rwa [if_neg (by rw [hw]; exact Bool.false_ne_true)] at hyoung

end Lowering

/-! ## All sessions -/

namespace Session

variable {s t : Session} {id : Nat} {b : Block}

/-- A watch expression changes no table but by its variable. -/
theorem symbol?_watchExpression (hb : s.block? id = some b) (node : Node) :
    (s.watchExpression id node).2.symbol? = s.symbol? ∨
      (s.watchExpression id node).2.symbol? = (s.enterLocal id (s.watchVariable id b)).symbol? := by
  let f := s.watchSite id b
  let start : State := { session := { s with isWatching := true } }
  have hvalue := Sparing.expression (f := f) node (endures_watched (s := start.session) rfl id) start (.refl _)
  have hpc : pc f start = .ok s.watch.size start := run_pc f start (.inl rfl)
  rw [watchExpression_eq hb, lowerWatch_eq, run_bind, hpc]
  dsimp only
  rw [run_bind]
  cases hrun : expression node f start with
  | error e t =>
    rw [hrun] at hvalue
    have hs : start.session.Watched t.session := hvalue.1
    refine .inl ?_
    change t.session.symbol? = _
    rw [hs.same]
    rfl
  | ok type t =>
    rw [hrun] at hvalue
    have hs : start.session.Watched t.session := hvalue.1
    let u : State := { t with
      session := { t.session.enterLocal id (s.watchVariable id b) with counters := (s.declareWatch id b).counters } }
    have htake : takeWatch f t = .ok (s.watchVariable id b) u := run_takeWatch hb hs
    have hwu : u.session.isWatching = true := hs.isWatching
    obtain ⟨log, -, hend⟩ := run_endWatch (f := f) hwu (s.watchVariable id b)
    refine .inr ?_
    dsimp only
    rw [run_bind, htake]
    dsimp only
    rw [run_bind, hend]
    change (t.session.enterLocal id (s.watchVariable id b)).symbol? = _
    rw [hs.same]
    rfl

theorem paired_new (options : Options) : (new options).Paired := by
  refine ⟨fun cls => ?_, fun x hx => ?_⟩
  · simp only [entries, statics, picked, symbolsOf_new, List.filter_nil, List.map_nil]
  · rw [symbolsOf_new] at hx
    cases hx

/-- Whatever a unit comes by, the tables are the same. -/
theorem paired_of_visits {f : Frame} {dialect : Dialect} (hs : s.Native) (hp : s.Paired)
    (hv : Visits (s.unitSite dialect) (s.unitStart dialect).2 f t) : t.Paired := by
  have hstart : (s.unitStart dialect).2.Paired := hp.congr (s.symbol?_unitStart dialect)
  have hw := isWatching_unitStart s dialect
  have hreached := hs.used.reached
  have hmirroring := (invariant_mirroring _).visits hv
    ((hreached.mirrored.unitStart dialect).start (coherent_unitStart hreached.coherent dialect) fun _ => rfl)
  exact hmirroring.paired hstart hw (invariant_static.visits hv ⟨hw, hstart.static⟩).2

theorem Paired.importSymbol (h : s.Paired) (name : String) (type : Ty) (library : String) :
    (s.importSymbol name type library).2.Paired := by
  obtain ⟨u, x, hsymbol, hheader, hstatic, hscope, -, heq⟩ := s.importSymbol_eq name type library
  rw [heq]
  refine (h.congr hsymbol).enterLocal hheader hstatic fun _ => ?_
  rw [Symbol.isMember, hscope]
  rfl

/-- The variable of a watch expression is no member. -/
theorem isMember_watchVariable (s : Session) (id : Nat) (b : Block) : (s.watchVariable id b).isMember = false := by
  change ((s.watchSite id b).scope.classScope.isSome && (s.watchSite id b).scope.function.isNone) = false
  unfold watchSite scopeOf
  cases b.procedure <;> simp [Scope.function, Scope.global]

theorem Paired.watchExpression (h : s.Paired) (id : Nat) (node : Node) :
    (s.watchExpression id node).2.Paired := by
  cases hb : s.block? id with
  | none =>
    unfold Session.watchExpression
    rw [hb]
    exact h
  | some b =>
    have hheader : (s.header? id).isSome := by rw [header?_isSome, hb]; rfl
    rcases symbol?_watchExpression hb node with hsame | hentered
    · exact h.congr hsame
    · exact (h.enterLocal hheader rfl fun _ => s.isMember_watchVariable id b).congr hentered

theorem Native.paired (h : s.Native) : s.Paired := by
  obtain ⟨options, h⟩ := h
  induction h using Leads.induct with
  | refl => exact paired_new options
  | setFile t file ih => exact ih.congr rfl
  | setParsingModule t on ih => exact ih.congr rfl
  | importSymbol t name type library _ ih => exact ih.importSymbol name type library
  | addClass t c classes _ hnative ih => exact absurd rfl (hnative c)
  | addMethod t cls p _ ih => exact ih.congr (t.symbol?_register (.inClass cls) p)
  | addProcedure t p _ ih => exact ih.congr rfl
  | compile t unit dialect _ ht ih =>
    have hnative : t.Native := ⟨options, ht⟩
    have hdefect := hnative.used.no_defect.1 unit dialect
    exact paired_of_visits hnative ih (.here (compile_evolves hdefect))
  | watchExpression t id b node _ _ _ ih => exact ih.watchExpression id node

/-! ## Where names are looked up -/

/-- The session is one at rest after calls that register no class, one in the course of a unit that is lowered
then, or one in the course of the expression of a watch. -/
inductive Arises : Session → Prop where
  | rest {s : Session} (hs : s.Native) : Arises s
  | unit {s t : Session} {f : Frame} (dialect : Dialect) (hs : s.Native)
      (hv : Visits (s.unitSite dialect) (s.unitStart dialect).2 f t) : Arises t
  | watch {s t : Session} (hs : s.Native) (ht : { s with isWatching := true }.Watched t) : Arises t

theorem Watched.symbol?_eq {s t : Session} (h : s.Watched t) : t.symbol? = s.symbol? := by
  rw [h.same]
  rfl

/-- What the lookups rely on. -/
theorem Arises.tables (h : t.Arises) : t.Paired ∧ t.Housed ∧ t.Listed := by
  cases h with
  | rest hs => exact ⟨hs.paired, hs.housed, hs.used.listed⟩
  | unit dialect hs hv =>
    have hoccurs := Occurs.unit dialect hs hv
    exact ⟨paired_of_visits hs hs.paired hv, hoccurs.housed, hoccurs.tables.2⟩
  | @watch s _ hs ht =>
    have hsymbol : t.symbol? = s.symbol? := ht.symbol?_eq
    refine ⟨hs.paired.congr hsymbol, hs.housed.congr hsymbol, hs.used.listed.congr ?_ ?_⟩
    · rw [ht.same]
    · rw [ht.same]
      rfl

/-! ## Pairs -/

/-- The n-th static member of a class and the n-th entry of that class in the first block. -/
inductive Pairs (s : Session) : SymbolRef → SymbolRef → Prop where
  | intro {cls k i : Nat} {x y : Symbol} (hx : s.symbol? ⟨.cls cls, k⟩ = some x) (hstatic : x.isStatic = true)
      (hy : s.symbol? ⟨.block 0, i⟩ = some y) (hentry : y.isStaticIn cls = true)
      (hrank : rank (s.symbolsOf (.cls cls)) Symbol.isStatic k =
        rank (s.symbolsOf (.block 0)) (Symbol.isStaticIn cls) i) :
      Pairs s ⟨.cls cls, k⟩ ⟨.block 0, i⟩

/-- The pairs match the static members of classes with the members that stand in the first block, one to one. -/
structure Corresponds (s : Session) (P : SymbolRef → SymbolRef → Prop) : Prop where
  /-- Every static member of a class has exactly one entry. -/
  entered : ∀ cls k x, s.symbol? ⟨.cls cls, k⟩ = some x → x.isStatic = true → ∃! e, P ⟨.cls cls, k⟩ e
  /-- Every member that stands in the first block is the entry of exactly one static member. -/
  declared : ∀ i y, s.symbol? ⟨.block 0, i⟩ = some y → y.isMember = true → ∃! m, P m ⟨.block 0, i⟩
  /-- The two are the same symbol but for where they stand. -/
  same : ∀ m e, P m e → ∃ cls x y, m.owner = .cls cls ∧ e.owner = .block 0 ∧ s.symbol? m = some x ∧
    s.symbol? e = some y ∧ x.isStatic = true ∧ y.isMember = true ∧ y.classScope = some cls ∧ x.bare = y.bare
  /-- The members of a class were entered in the order of their declaration. -/
  ordered : ∀ m e n o, P m e → P n o → m.owner = n.owner → (m.index < n.index ↔ e.index < o.index)

variable {x y : Symbol} {cls k i : Nat}

theorem getElem?_picked {o : Owner} {p : Symbol → Bool} (hx : s.symbol? ⟨o, k⟩ = some x) (hp : p x = true) :
    (s.picked o p)[rank (s.symbolsOf o) p k]? = some x.bare := by
  rw [picked, List.getElem?_map,
    getElem?_filter_iff.mpr ⟨k, (s.getElem?_symbolsOf o k).trans hx, hp, rfl⟩]
  rfl

theorem exists_of_getElem?_picked {o : Owner} {p : Symbol → Bool} {n : Nat}
    (h : (s.picked o p)[n]? = some x) :
    ∃ k y, s.symbol? ⟨o, k⟩ = some y ∧ p y = true ∧ rank (s.symbolsOf o) p k = n ∧ y.bare = x := by
  rw [picked, List.getElem?_map] at h
  obtain ⟨y, hy, hbare⟩ := Option.map_eq_some_iff.mp h
  obtain ⟨k, hk, hp, hr⟩ := getElem?_filter_iff.mp hy
  exact ⟨k, y, (s.getElem?_symbolsOf o k).symm.trans hk, hp, hr, hbare⟩

theorem eq_of_rank_symbolsOf {o : Owner} {p : Symbol → Bool} (hx : s.symbol? ⟨o, k⟩ = some x) (hp : p x = true)
    (hy : s.symbol? ⟨o, i⟩ = some y) (hq : p y = true)
    (h : rank (s.symbolsOf o) p k = rank (s.symbolsOf o) p i) : k = i :=
  eq_of_rank_eq ((s.getElem?_symbolsOf o k).trans hx) hp ((s.getElem?_symbolsOf o i).trans hy) hq h

/-- The n-th static member and the n-th entry are the same symbol. -/
theorem Paired.bare_eq_of_rank (h : s.Paired) (hx : s.symbol? ⟨.cls cls, k⟩ = some x) (hstatic : x.isStatic = true)
    (hy : s.symbol? ⟨.block 0, i⟩ = some y) (hentry : y.isStaticIn cls = true)
    (hrank : rank (s.symbolsOf (.cls cls)) Symbol.isStatic k =
      rank (s.symbolsOf (.block 0)) (Symbol.isStaticIn cls) i) : x.bare = y.bare := by
  have hentries := getElem?_picked hy hentry
  have hstatics := getElem?_picked hx hstatic
  change (s.entries cls)[_]? = _ at hentries
  change (s.statics cls)[_]? = _ at hstatics
  rw [h.same, ← hrank, hstatics] at hentries
  exact Option.some.inj hentries

theorem Paired.exists_entry (h : s.Paired) (hx : s.symbol? ⟨.cls cls, k⟩ = some x) (hstatic : x.isStatic = true) :
    ∃ i, s.Pairs ⟨.cls cls, k⟩ ⟨.block 0, i⟩ := by
  have hstatics := getElem?_picked hx hstatic
  change (s.statics cls)[_]? = _ at hstatics
  rw [← h.same] at hstatics
  obtain ⟨i, y, hy, hentry, hrank, -⟩ := exists_of_getElem?_picked hstatics
  exact ⟨i, .intro hx hstatic hy hentry hrank.symm⟩

theorem Paired.exists_member (h : s.Paired) (hy : s.symbol? ⟨.block 0, i⟩ = some y)
    (hentry : y.isStaticIn cls = true) : ∃ k, s.Pairs ⟨.cls cls, k⟩ ⟨.block 0, i⟩ := by
  have hentries := getElem?_picked hy hentry
  change (s.entries cls)[_]? = _ at hentries
  rw [h.same] at hentries
  obtain ⟨k, x, hx, hstatic, hrank, -⟩ := exists_of_getElem?_picked hentries
  exact ⟨k, .intro hx hstatic hy hentry hrank⟩

/-- The static members of classes and their entries correspond one to one. -/
theorem Paired.corresponds (h : s.Paired) (hh : s.Housed) : s.Corresponds s.Pairs where
  entered cls k x hx hstatic := by
    obtain ⟨i, hpair⟩ := h.exists_entry hx hstatic
    refine ⟨_, hpair, fun e he => ?_⟩
    cases hpair with
    | intro hx hstatic hy hentry hrank =>
    cases he with
    | intro _ _ hy' hentry' hrank' =>
    rw [eq_of_rank_symbolsOf hy' hentry' hy hentry (hrank'.symm.trans hrank)]
  declared i y hy hmember := by
    obtain ⟨cls, hcls⟩ := Option.isSome_iff_exists.mp (Bool.and_eq_true_iff.mp hmember).1
    have hstatic := h.static y (mem_symbolsOf hy) hmember
    have hentry : y.isStaticIn cls = true := Bool.and_eq_true_iff.mpr ⟨hstatic, beq_iff_eq.mpr hcls⟩
    obtain ⟨k, hpair⟩ := h.exists_member hy hentry
    refine ⟨_, hpair, fun m hm => ?_⟩
    cases hpair with
    | intro hx hstatic _ _ hrank =>
    cases hm with
    | intro hx' hstatic' hy' hentry' hrank' =>
    cases hy.symm.trans hy'
    have hcls' := eq_of_beq (Bool.and_eq_true_iff.mp hentry').2
    cases hcls.symm.trans hcls'
    rw [eq_of_rank_symbolsOf hx' hstatic' hx hstatic (hrank'.trans hrank.symm)]
  same m e hpair := by
    cases hpair with
    | @intro cls k i x y hx hstatic hy hentry hrank =>
    have hbare := h.bare_eq_of_rank hx hstatic hy hentry hrank
    have hcls := eq_of_beq (Bool.and_eq_true_iff.mp hentry).2
    have hfunction : y.function = none :=
      (congrArg Symbol.function hbare).symm.trans (hh.members cls x (mem_symbolsOf hx)).2
    refine ⟨cls, x, y, rfl, rfl, hx, hy, hstatic, ?_, hcls, hbare⟩
    rw [Symbol.isMember, hcls, hfunction]
    rfl
  ordered m e n o hm hn howner := by
    cases hm with
    | intro hx hstatic hy hentry hrank =>
    cases hn with
    | intro hx' hstatic' hy' hentry' hrank' =>
    cases howner
    have hget (o : Owner) (j : Nat) := s.getElem?_symbolsOf o j
    have hmembers := rank_lt_iff ((hget _ _).trans hx) hstatic ((hget _ _).trans hx') hstatic'
    have hentries := rank_lt_iff ((hget _ _).trans hy) hentry ((hget _ _).trans hy') hentry'
    rw [← hmembers, ← hentries, hrank, hrank']

end Session

/-! ## Lookups -/

namespace Lowering.Sight

variable {v : Sight} {name : String} {cls : Nat} {m : MemberRef}

/-- What a lookup of a member finds is the first symbol of the name in its class. -/
theorem isFirst_of_lookupMember (hh : v.session.Housed) (hl : v.session.Listed)
    (hm : v.session.classes.lookupMember cls name v.frame.scope.classScope = .found m) :
    ∃ x, v.session.IsFirst ⟨.cls m.owner, m.index⟩ x name fun _ => true := by
  obtain ⟨c, access, hc, hd, -⟩ := ClassTable.searchMember_accessible hm
  obtain ⟨i, hi, heq⟩ := Option.map_eq_some_iff.mp hd
  cases heq
  obtain ⟨x, hx, hname, -, hfirst⟩ := (hl.classes _ c hc).first_of_findNamed? hi
  have hget (j : Nat) : v.session.symbol? ⟨.cls m.owner, j⟩ = c.symbols.get? j := by
    rw [Session.symbol?_cls, hc]
    rfl
  refine ⟨x, (hget _).trans hx, hname, rfl, fun j hj y hy hyname => ?_⟩
  -- all symbols of a class stand outside of procedures
  have hfunction := (hh.members _ y (Session.mem_symbolsOf hy)).2
  have hno := hfirst j hj y ((hget j).symm.trans hy) hyname
  rw [hfunction] at hno
  cases hno

/-- The entry that is found for a static member is the entry of that very member. -/
theorem staticEntry?_of_lookupMember (hp : v.session.Paired) (hh : v.session.Housed) (hl : v.session.Listed)
    (hm : v.session.classes.lookupMember cls name v.frame.scope.classScope = .found m) {x : Symbol}
    (hx : v.session.symbol? ⟨.cls m.owner, m.index⟩ = some x) (hstatic : x.isStatic = true) :
    ∃ e, v.staticEntry? m.owner name = some e ∧ v.session.Pairs ⟨.cls m.owner, m.index⟩ e := by
  obtain ⟨x', hfirst⟩ := isFirst_of_lookupMember hh hl hm
  cases hfirst.symbol.symm.trans hx
  obtain ⟨i, hpair⟩ := hp.exists_entry hx hstatic
  refine ⟨⟨.block 0, i⟩, ?_, hpair⟩
  obtain ⟨y, hy, hentry, hyname⟩ : ∃ y, v.session.symbol? ⟨.block 0, i⟩ = some y ∧
      y.isStaticIn m.owner = true ∧ y.name = name := by
    cases hpair with
    | intro hx' hstatic' hy hentry hrank =>
    cases hx.symm.trans hx'
    have hbare := hp.bare_eq_of_rank hx hstatic hy hentry hrank
    exact ⟨_, hy, hentry, (congrArg Symbol.name hbare).symm.trans hfirst.named⟩
  obtain ⟨j, hle, hfound⟩ := staticEntry?_le hl hy hentry
  rw [hyname] at hfound
  rcases Nat.eq_or_lt_of_le hle with rfl | hlt
  · exact hfound
  -- An entry before would belong to a static member of the name in front of the one that was found.
  obtain ⟨j', hj, heq⟩ := Option.map_eq_some_iff.mp hfound
  cases heq
  obtain ⟨z, hz⟩ := isFirst_of_findNamed? hl hj
  obtain ⟨k, hpair'⟩ := hp.exists_member hz.symbol hz.holds
  have hk : k < m.index := ((hp.corresponds hh).ordered _ _ _ _ hpair' hpair rfl).mpr hlt
  cases hpair' with
  | intro hx' hstatic' hy' hentry' hrank' =>
  cases hz.symbol.symm.trans hy'
  have hbare := hp.bare_eq_of_rank hx' hstatic' hy' hentry' hrank'
  have hname := (congrArg Symbol.name hbare).trans hz.named
  cases hfirst.first k hk _ hx' hname

theorem inClass_of_lookupMember {e : SymbolRef}
    (hm : v.session.classes.lookupMember cls name v.frame.scope.classScope = .found m)
    (hstatic : v.isStaticMember m = true) (he : v.staticEntry? m.owner name = some e) :
    v.inClass cls name = .found e := by
  unfold inClass
  rw [hm]
  dsimp only
  rw [if_pos hstatic, he]

/-- What is found behind the classes is no member. -/
theorem isMember_of_inBlocks {r : SymbolRef}
    (h : v.inProcedure? name = some r ∨ ∃ block, v.inBlock? name block = some r) :
    ∃ x, v.session.symbol? r = some x ∧ x.isMember = false := by
  rcases h with hprocedure | ⟨block, hblock⟩
  · obtain ⟨body, i, x, -, rfl, hx, hfunction⟩ := inProcedure?_eq_some hprocedure
    refine ⟨x, hx, ?_⟩
    have hinside : v.frame.scope.function.isSome := by
      unfold inProcedure? at hprocedure
      split at hprocedure
      · next hfn _ => rw [hfn]; rfl
      · cases hprocedure
    rw [Symbol.isMember, hfunction, Option.isNone_eq_false_iff.mpr hinside, Bool.and_false]
  · obtain ⟨i, x, rfl, hx, hvisible⟩ := inBlock?_eq_some hblock
    refine ⟨x, hx, ?_⟩
    simp only [isVisible, Bool.and_eq_true, Bool.not_eq_true'] at hvisible
    exact hvisible.1.1

/-- A name that stands for a member was looked up in the class. -/
theorem inClass_of_resolve {r : SymbolRef} {x : Symbol} (h : v.resolve name = .found r)
    (hx : v.session.symbol? r = some x) (hmember : x.isMember = true) :
    ∃ cls, v.frame.scope.classScope = some cls ∧ v.inClass cls name = .found r := by
  rcases resolve_found h with hbehind | hclass
  · obtain ⟨y, hy, hno⟩ := isMember_of_inBlocks (hbehind.imp_right fun ⟨block, _, hb⟩ => ⟨block, hb⟩)
    cases hx.symm.trans hy
    cases hmember.symm.trans hno
  · exact hclass

end Lowering.Sight

namespace Session

variable {s : Session}

/-- **Static members and their entries correspond.** In a session whose classes are all declared by units, the pairs
are a one-to-one correspondence between the static members of classes and the members that stand in the first block.
Whatever the code, a lookup that finds a static member ends at the entry of that very member; a lookup in the
procedure or in the blocks around never ends at an entry, and a plain name stands for one only if the class of the
code, or a base class, has the member. -/
theorem Arises.entries_correspond (h : s.Arises) :
    s.Corresponds s.Pairs ∧ ∀ v : Sight, v.session = s →
      (∀ cls name m, s.classes.lookupMember cls name v.frame.scope.classScope = .found m →
        v.isStaticMember m = true →
          ∃ e, v.inClass cls name = .found e ∧ s.Pairs ⟨.cls m.owner, m.index⟩ e) ∧
      (∀ name m e, v.inProcedure? name = some e ∨ (∃ block, v.inBlock? name block = some e) ∨
        v.inBlocks name = .found e → ¬ s.Pairs m e) ∧
      ∀ name m e, v.resolve name = .found e → s.Pairs m e →
        ∃ cls, v.frame.scope.classScope = some cls ∧ v.inClass cls name = .found e := by
  obtain ⟨hp, hh, hl⟩ := h.tables
  have hcorresponds := hp.corresponds hh
  refine ⟨hcorresponds, ?_⟩
  rintro v rfl
  refine ⟨fun cls name m hm hstatic => ?_, fun name m e hbehind hpair => ?_, fun name m e hr hpair => ?_⟩
  · obtain ⟨x, hx, hx'⟩ : ∃ x, v.session.symbol? ⟨.cls m.owner, m.index⟩ = some x ∧ x.isStatic = true := by
      obtain ⟨x, hfirst⟩ := Sight.isFirst_of_lookupMember hh hl hm
      have hget := (v.session.symbol?_cls m.owner m.index).symm.trans hfirst.symbol
      rw [Sight.isStaticMember, hget] at hstatic
      exact ⟨x, hfirst.symbol, hstatic⟩
    obtain ⟨e, he, hpair⟩ := Sight.staticEntry?_of_lookupMember hp hh hl hm hx hx'
    exact ⟨e, Sight.inClass_of_lookupMember hm hstatic he, hpair⟩
  · obtain ⟨cls, x, y, -, -, -, hy, -, hmember, -⟩ := hcorresponds.same m e hpair
    have hplain : v.inProcedure? name = some e ∨ ∃ block, v.inBlock? name block = some e := by
      rcases hbehind with hproc | hblock | hblocks
      · exact .inl hproc
      · exact .inr hblock
      · obtain hproc | ⟨block, -, hb⟩ := Sight.inBlocks_found hblocks
        · exact .inl hproc
        · exact .inr ⟨block, hb⟩
    obtain ⟨z, hz, hno⟩ := Sight.isMember_of_inBlocks hplain
    cases hy.symm.trans hz
    cases hmember.symm.trans hno
  · obtain ⟨cls, x, y, -, -, -, hy, -, hmember, -⟩ := hcorresponds.same m e hpair
    exact Sight.inClass_of_resolve hr hy hmember

/-- Two static members of one name, behind one another on the way to the base class, have entries of their own. -/
theorem inherited_static_entered :
    let member (name : String) : Variable :=
      { name, type := .var, value := none, isStatic := true, access := .isPublic, region := .stack, span := .nil }
    let base : Node := .classDecl
      { name := "A", base := none, members := [member "n", member "m"], methods := [], attributes := []
        span := .nil }
    let derived : Node := .classDecl
      { name := "B", base := some "A", members := [member "n"], methods := [], attributes := [], span := .nil }
    let s := (Session.compile (.new {}) [base, derived] .associative).2
    let f : Frame := { block := 0, scope := .global, dialect := .associative }
    s.Arises ∧ s.classes.lookupMember 13 "n" none = .found ⟨13, 0⟩ ∧
      s.classes.lookupMember 13 "m" none = .found ⟨12, 1⟩ ∧
      Sight.inClass ⟨s, f, [0]⟩ 13 "n" = .found ⟨.block 0, 2⟩ ∧ s.Pairs ⟨.cls 13, 0⟩ ⟨.block 0, 2⟩ ∧
      Sight.inClass ⟨s, f, [0]⟩ 13 "m" = .found ⟨.block 0, 1⟩ ∧ s.Pairs ⟨.cls 12, 1⟩ ⟨.block 0, 1⟩ := by
  intro member base derived s f
  have harises : s.Arises := .rest (.compile [base, derived] .associative (.new {}))
  have hn : s.classes.lookupMember 13 "n" none = .found ⟨13, 0⟩ := by decide +kernel
  have hm : s.classes.lookupMember 13 "m" none = .found ⟨12, 1⟩ := by decide +kernel
  have hn' : Sight.inClass ⟨s, f, [0]⟩ 13 "n" = .found ⟨.block 0, 2⟩ := by decide +kernel
  have hm' : Sight.inClass ⟨s, f, [0]⟩ 13 "m" = .found ⟨.block 0, 1⟩ := by decide +kernel
  have hstatic : Sight.isStaticMember ⟨s, f, [0]⟩ ⟨13, 0⟩ = true ∧
      Sight.isStaticMember ⟨s, f, [0]⟩ ⟨12, 1⟩ = true := by decide +kernel
  clear_value s
  obtain ⟨hlookup, -⟩ := harises.entries_correspond.2 ⟨s, f, [0]⟩ rfl
  obtain ⟨e, he, hpair⟩ := hlookup 13 "n" _ hn hstatic.1
  obtain ⟨o, ho, hpair'⟩ := hlookup 13 "m" _ hm hstatic.2
  cases hn'.symm.trans he
  cases hm'.symm.trans ho
  exact ⟨harises, hn, hm, hn', hpair, hm', hpair'⟩

end Session

end Diglot
