import Diglot.Proofs.Slots.Members

/-! # Members along base classes

An object has a place for each instance member of its class and of all base classes.

* `Traced.layout`: these places are apart, unless a class without members stands between two classes
  with members.
* There the count starts over (`skipUnit_collides`): a class continues the count of its base class only
  if the base class has one.
-/

set_option autoImplicit false

namespace Diglot

open Lowering

namespace Session

variable {W : SymbolRef → Prop} {R : Nat → Prop} {s : Session}

/-! ## Base classes in order -/

theorem Used.basesFirst (h : s.Used) : s.BasesFirst := by
  intro cls b hb
  obtain ⟨c, hc, hbase⟩ := Option.bind_eq_some_iff.mp hb
  exact (h.fit.tidy.classes cls c hc).base b hbase

/-- The walk towards the farthest base class is as long as need be. -/
theorem BasesFirst.lineage_eq (h : s.BasesFirst) (cls : Nat) :
    s.classes.lineage cls =
      match s.base? cls with
      | some b => cls :: s.classes.lineage b
      | none => [cls] := by
  have hfuel : ∀ m n i, i < m → i < n → s.classes.lineageFrom m i = s.classes.lineageFrom n i := by
    intro m
    induction m with
    | zero => omega
    | succ m ih =>
      intro n i hm hn
      cases n with
      | zero => omega
      | succ n =>
        unfold ClassTable.lineageFrom
        cases hb : (s.classes.get? i).bind Class.base with
        | none => rfl
        | some b =>
          have := h i b hb
          dsimp only
          rw [ih n b (by omega) (by omega)]
  unfold ClassTable.lineage
  rw [ClassTable.lineageFrom]
  change (match s.base? cls with
    | some b => cls :: s.classes.lineageFrom s.classes.size b
    | none => [cls]) = _
  cases hb : s.base? cls with
  | none => rfl
  | some b =>
    obtain ⟨c, hc, _⟩ := Option.bind_eq_some_iff.mp hb
    have hlt : cls < s.classes.size := (Array.getElem?_eq_some_iff.mp hc).1
    have := h cls b hb
    dsimp only
    rw [hfuel s.classes.size (s.classes.size + 1) b (by omega) (by omega)]

/-- The instance members of a class and of all its base classes have places of their own. -/
def LaidApart (s : Session) (cls : Nat) : Prop :=
  ∀ i ∈ s.classes.lineage cls, ∀ j ∈ s.classes.lineage cls, ∀ a b x y,
    s.IsInstanceOf i a x → s.IsInstanceOf j b y → x.offset = y.offset → a = b

/-- Among a class and its base classes, one without instance members stands between two with some. -/
def HasGap (s : Session) (cls : Nat) : Prop :=
  ∃ i j k, [i, j, k].Sublist (s.classes.lineage cls) ∧ s.HasInstances i ∧ ¬ s.HasInstances j ∧
    s.HasInstances k

theorem BasesFirst.lineage_of_base (h : s.BasesFirst) {cls b : Nat} (hb : s.base? cls = some b) :
    s.classes.lineage cls = cls :: s.classes.lineage b := by
  rw [h.lineage_eq, hb]

theorem BasesFirst.lineage_of_root (h : s.BasesFirst) {cls : Nat} (hb : s.base? cls = none) :
    s.classes.lineage cls = [cls] := by
  rw [h.lineage_eq, hb]

theorem BasesFirst.mem_of_base (h : s.BasesFirst) {cls b i : Nat} (hb : s.base? cls = some b)
    (hi : i ∈ s.classes.lineage b) : i ∈ s.classes.lineage cls := by
  rw [h.lineage_of_base hb]
  exact List.mem_cons_of_mem cls hi

theorem BasesFirst.exists_lineage (h : s.BasesFirst) (cls : Nat) :
    ∃ rest, s.classes.lineage cls = cls :: rest := by
  rw [h.lineage_eq]
  cases s.base? cls with
  | none => exact ⟨[], rfl⟩
  | some b => exact ⟨_, rfl⟩

theorem BasesFirst.mem_lineage (h : s.BasesFirst) (cls : Nat) : cls ∈ s.classes.lineage cls := by
  obtain ⟨rest, hrest⟩ := h.exists_lineage cls
  rw [hrest]
  exact List.mem_cons_self ..

theorem BasesFirst.le_of_mem (h : s.BasesFirst) {cls i : Nat} (hi : i ∈ s.classes.lineage cls) :
    i ≤ cls := by
  induction cls using Nat.strongRecOn with
  | ind cls ih =>
    cases hb : s.base? cls with
    | none =>
      rw [h.lineage_of_root hb, List.mem_singleton] at hi
      omega
    | some b =>
      have hlt := h cls b hb
      rw [h.lineage_of_base hb] at hi
      rcases List.mem_cons.mp hi with rfl | hi
      · exact Nat.le_refl _
      · exact Nat.le_trans (ih b hlt hi) (Nat.le_of_lt hlt)

theorem BasesFirst.hasGap_iff (h : s.BasesFirst) {cls b : Nat} (hb : s.base? cls = some b) :
    s.HasGap cls ↔ s.HasGap b ∨
      s.HasInstances cls ∧ ¬ s.HasInstances b ∧ ∃ k ∈ s.classes.lineage b, s.HasInstances k := by
  obtain ⟨rest, hrest⟩ := h.exists_lineage b
  unfold HasGap
  rw [h.lineage_of_base hb]
  constructor
  · rintro ⟨i, j, k, hsub, hi, hj, hk⟩
    rcases List.sublist_cons_iff.mp hsub with hsub | ⟨_, heq, hsub⟩
    · exact .inl ⟨i, j, k, hsub, hi, hj, hk⟩
    · cases heq
      by_cases hbs : s.HasInstances b
      · -- The class without members is not the base class, so it comes behind it.
        refine .inl ⟨b, j, k, ?_, hbs, hj, hk⟩
        rw [hrest] at hsub ⊢
        rcases List.sublist_cons_iff.mp hsub with hsub | ⟨_, heq, _⟩
        · exact hsub.cons_cons b
        · cases heq
          exact absurd hbs hj
      · exact .inr ⟨hi, hbs, k, hsub.subset (by simp), hk⟩
  · rintro (⟨i, j, k, hsub, hrest⟩ | ⟨hi, hj, k, hk, hks⟩)
    · exact ⟨i, j, k, hsub.cons cls, hrest⟩
    · refine ⟨cls, b, k, List.Sublist.cons_cons cls ?_, hi, hj, hks⟩
      rw [hrest] at hk ⊢
      rcases List.mem_cons.mp hk with rfl | hk
      · exact absurd hks hj
      · exact (List.singleton_sublist.mpr hk).cons_cons b

theorem BasesFirst.not_hasGap_of_base (h : s.BasesFirst) {cls b : Nat} (hb : s.base? cls = some b)
    (hgap : ¬ s.HasGap cls) : ¬ s.HasGap b := fun hbase => hgap ((h.hasGap_iff hb).mpr (.inl hbase))

theorem Stacked.exists_instances {cls : Nat} (h : s.Stacked cls) (hcls : s.HasInstances cls) :
    ∃ n, s.instances? cls = some n :=
  Option.ne_none_iff_exists'.mp fun hnone => h.empty hnone hcls

theorem Stacked.hasInstances_iff {cls : Nat} (h : s.Stacked cls) :
    s.HasInstances cls ↔ (s.instances? cls).isSome := by
  constructor
  · intro hinstances
    exact Option.isSome_iff_exists.mpr (h.exists_instances hinstances)
  · intro hsome
    obtain ⟨n, hn⟩ := Option.isSome_iff_exists.mp hsome
    obtain ⟨a, x, hx, _⟩ := h.begun n hn
    exact ⟨a, x, hx⟩

theorem firstPlace_of_base {cls b n : Nat} (hb : s.base? cls = some b)
    (hn : s.instances? b = some n) : s.firstPlace cls = n := by
  simp [firstPlace, hb, hn]

theorem firstPlace_eq_zero {cls : Nat}
    (h : ∀ b, s.base? cls = some b → s.Stacked b ∧ ¬ s.HasInstances b) : s.firstPlace cls = 0 := by
  unfold firstPlace
  cases hb : s.base? cls with
  | none => rfl
  | some b =>
    obtain ⟨hstacked, hempty⟩ := h b hb
    rw [Option.bind_some, Option.not_isSome_iff_eq_none.mp (mt hstacked.hasInstances_iff.mpr hempty)]
    rfl

/-- Without a gap, all members of the base classes lie below the count of the class. -/
theorem offset_lt_instances (h : s.BasesFirst) {cls n : Nat}
    (hstacked : ∀ i ∈ s.classes.lineage cls, s.Stacked i) (hgap : ¬ s.HasGap cls)
    (hn : s.instances? cls = some n) {i : Nat} (hi : i ∈ s.classes.lineage cls) {a : SymbolRef}
    {x : Symbol} (hx : s.IsInstanceOf i a x) : x.offset < n := by
  induction cls using Nat.strongRecOn generalizing n with
  | ind cls ih =>
    have hself := hstacked cls (h.mem_lineage cls)
    obtain ⟨count, hcount, hspread⟩ := hself.placed n hn
    have hown (hx : s.IsInstanceOf cls a x) : x.offset < n := by
      obtain ⟨k, hk, hoffset⟩ := hspread.inside a x hx
      omega
    cases hb : s.base? cls with
    | none =>
      rw [h.lineage_of_root hb, List.mem_singleton] at hi
      exact hown (hi ▸ hx)
    | some b =>
      rw [h.lineage_of_base hb] at hi
      rcases List.mem_cons.mp hi with rfl | hi
      · exact hown hx
      · have hbase := hstacked b (h.mem_of_base hb (h.mem_lineage b))
        have hcls : s.HasInstances cls := hself.hasInstances_iff.mpr (by rw [hn]; rfl)
        -- Without a count, the base class would be the gap between this class and the class of `x`.
        cases hm : s.instances? b with
        | none =>
          exact absurd ((h.hasGap_iff hb).mpr (.inr ⟨hcls, hbase.empty hm, i, hi, a, x, hx⟩)) hgap
        | some m =>
          have hlt := ih b (h cls b hb) (fun j hj => hstacked j (h.mem_of_base hb hj))
            (h.not_hasGap_of_base hb hgap) hm hi
          rw [firstPlace_of_base hb hm] at hcount
          omega

theorem offset_ne_of_base (h : s.BasesFirst) {cls b : Nat} (hb : s.base? cls = some b)
    (hstacked : ∀ i ∈ s.classes.lineage cls, s.Stacked i) (hgap : ¬ s.HasGap cls) {j : Nat}
    (hj : j ∈ s.classes.lineage b) {a a' : SymbolRef} {x y : Symbol} (hx : s.IsInstanceOf cls a x)
    (hy : s.IsInstanceOf j a' y) : x.offset ≠ y.offset := by
  have hself := hstacked cls (h.mem_lineage cls)
  obtain ⟨n, hn⟩ := hself.exists_instances ⟨a, x, hx⟩
  obtain ⟨count, _, hspread⟩ := hself.placed n hn
  obtain ⟨k, _, hoffset⟩ := hspread.inside a x hx
  have hsub : ∀ i ∈ s.classes.lineage b, s.Stacked i :=
    fun i hi => hstacked i (h.mem_of_base hb hi)
  cases hm : s.instances? b with
  | none =>
    have hempty := (hsub b (h.mem_lineage b)).empty hm
    exact absurd ((h.hasGap_iff hb).mpr (.inr ⟨⟨a, x, hx⟩, hempty, j, hj, a', y, hy⟩)) hgap
  | some m =>
    have hlt := offset_lt_instances h hsub (h.not_hasGap_of_base hb hgap) hm hj hy
    rw [firstPlace_of_base hb hm] at hoffset
    omega

theorem laidApart_of_not_hasGap (h : s.BasesFirst) {cls : Nat}
    (hstacked : ∀ i ∈ s.classes.lineage cls, s.Stacked i) (hgap : ¬ s.HasGap cls) :
    s.LaidApart cls := by
  induction cls using Nat.strongRecOn with
  | ind cls ih =>
    have hown {a a' : SymbolRef} {x y : Symbol} (hx : s.IsInstanceOf cls a x)
        (hy : s.IsInstanceOf cls a' y) (heq : x.offset = y.offset) : a = a' := by
      have hself := hstacked cls (h.mem_lineage cls)
      obtain ⟨n, hn⟩ := hself.exists_instances ⟨a, x, hx⟩
      obtain ⟨count, _, hspread⟩ := hself.placed n hn
      exact hspread.apart a a' x y hx hy heq
    intro i hi j hj a a' x y hx hy heq
    cases hb : s.base? cls with
    | none =>
      rw [h.lineage_of_root hb, List.mem_singleton] at hi hj
      exact hown (hi ▸ hx) (hj ▸ hy) heq
    | some b =>
      rw [h.lineage_of_base hb] at hi hj
      rcases List.mem_cons.mp hi with rfl | hib <;> rcases List.mem_cons.mp hj with rfl | hjb
      · exact hown hx hy heq
      · exact absurd heq (offset_ne_of_base h hb hstacked hgap hjb hx hy)
      · exact absurd heq.symm (offset_ne_of_base h hb hstacked hgap hib hy hx)
      · exact ih b (h cls b hb) (fun k hk => hstacked k (h.mem_of_base hb hk))
          (h.not_hasGap_of_base hb hgap) i hib j hjb a a' x y hx hy heq

theorem exists_offset_zero (h : s.BasesFirst) {cls k : Nat}
    (hstacked : ∀ i ∈ s.classes.lineage cls, s.Stacked i) (hk : k ∈ s.classes.lineage cls)
    (hinstances : s.HasInstances k) :
    ∃ i ∈ s.classes.lineage cls, ∃ a x, s.IsInstanceOf i a x ∧ x.offset = 0 := by
  induction cls using Nat.strongRecOn generalizing k with
  | ind cls ih =>
    -- Either a base class has members, or the count of this class begins at zero.
    by_cases hbase : ∃ b, s.base? cls = some b ∧ ∃ j ∈ s.classes.lineage b, s.HasInstances j
    · obtain ⟨b, hb, j, hj, hjs⟩ := hbase
      obtain ⟨i, hi, hzero⟩ := ih b (h cls b hb)
        (fun i hi => hstacked i (h.mem_of_base hb hi)) hj hjs
      exact ⟨i, h.mem_of_base hb hi, hzero⟩
    · have hcls : s.HasInstances cls := by
        cases hb : s.base? cls with
        | none =>
          rw [h.lineage_of_root hb, List.mem_singleton] at hk
          exact hk ▸ hinstances
        | some b =>
          rw [h.lineage_of_base hb] at hk
          rcases List.mem_cons.mp hk with rfl | hk
          · exact hinstances
          · exact absurd ⟨b, hb, k, hk, hinstances⟩ hbase
      have hself := hstacked cls (h.mem_lineage cls)
      obtain ⟨n, hn⟩ := hself.exists_instances hcls
      obtain ⟨a, x, hx, hoffset⟩ := hself.begun n hn
      refine ⟨cls, h.mem_lineage cls, a, x, hx, ?_⟩
      rw [hoffset, firstPlace_eq_zero fun b hb => ⟨?_, fun hbs => ?_⟩]
      · rfl
      · exact hstacked b (h.mem_of_base hb (h.mem_lineage b))
      · exact hbase ⟨b, hb, b, h.mem_lineage b, hbs⟩

theorem not_laidApart_of_empty_base (h : s.BasesFirst) {cls b k : Nat} (hb : s.base? cls = some b)
    (hstacked : ∀ i ∈ s.classes.lineage cls, s.Stacked i) (hcls : s.HasInstances cls)
    (hempty : ¬ s.HasInstances b) (hk : k ∈ s.classes.lineage b) (hinstances : s.HasInstances k) :
    ¬ s.LaidApart cls := by
  have hstacked' : ∀ i ∈ s.classes.lineage b, s.Stacked i :=
    fun i hi => hstacked i (h.mem_of_base hb hi)
  have hself := hstacked cls (h.mem_lineage cls)
  obtain ⟨n, hn⟩ := hself.exists_instances hcls
  obtain ⟨a, x, hx, hoffset⟩ := hself.begun n hn
  -- The base class has no count that the class could go on with, so that its places start over.
  have hzero : x.offset = 0 := by
    rw [hoffset, firstPlace_eq_zero]
    · rfl
    · intro b' hb'
      cases hb.symm.trans hb'
      exact ⟨hstacked' b (h.mem_lineage b), hempty⟩
  obtain ⟨m, hm, a', y, hy, hyzero⟩ := exists_offset_zero h hstacked' hk hinstances
  intro hapart
  have heq := hapart cls (h.mem_lineage cls) m (h.mem_of_base hb hm) a a' x y hx hy
    (hzero.trans hyzero.symm)
  have howner : Owner.cls cls = .cls m := hx.2.1.symm.trans (heq ▸ hy.2.1)
  cases howner
  have := h.le_of_mem hm
  have := h cls b hb
  omega

theorem HasGap.not_laidApart (h : s.BasesFirst) {cls : Nat}
    (hstacked : ∀ i ∈ s.classes.lineage cls, s.Stacked i) (hgap : s.HasGap cls) :
    ¬ s.LaidApart cls := by
  induction cls using Nat.strongRecOn with
  | ind cls ih =>
    cases hb : s.base? cls with
    | none =>
      obtain ⟨i, j, k, hsub, _⟩ := hgap
      rw [h.lineage_of_root hb] at hsub
      exact absurd hsub.length_le (by simp)
    | some b =>
      rcases (h.hasGap_iff hb).mp hgap with hgap | ⟨hcls, hempty, k, hk, hks⟩
      · intro hapart
        exact ih b (h cls b hb) (fun i hi => hstacked i (h.mem_of_base hb hi)) hgap
          fun i hi j hj => hapart i (h.mem_of_base hb hi) j (h.mem_of_base hb hj)
      · exact not_laidApart_of_empty_base h hb hstacked hcls hempty hk hks

/-- An object has a place for each member. For every class that was declared, as were all its base
classes, the instance members of the class and of the base classes have places of their own if and only
if no class without instance members stands between two with some. -/
theorem Traced.layout (h : Traced W R s) (hused : s.Used) {cls : Nat}
    (hdeclared : ∀ i ∈ s.classes.lineage cls, ¬ R i) : s.LaidApart cls ↔ ¬ s.HasGap cls := by
  have hfirst := hused.basesFirst
  have hstacked : ∀ i ∈ s.classes.lineage cls, s.Stacked i :=
    fun i hi => h.layered.stacked hfirst i (hdeclared i hi)
  exact ⟨fun hapart hgap => hgap.not_laidApart hfirst hstacked hapart,
    laidApart_of_not_hasGap hfirst hstacked⟩

/-- A class, one that derives from it and has a member too, one below that has none, and a last one. -/
def skipUnit : List Node :=
  let member (name : String) : Variable :=
    { name, type := .var, value := none, isStatic := false, access := .isPublic, region := .stack
      span := .nil }
  let cls (name : String) (base : Option String) (members : List Variable) : Node :=
    .classDecl { name, base, members, methods := [], attributes := [], span := .nil }
  [cls "A" none [member "x"], cls "B" (some "A") [member "y"], cls "C" (some "B") [],
    cls "D" (some "C") [member "z"]]

def skipSession : Session := ((new {}).compile skipUnit .associative).2

theorem skipSession_eq : skipSession = ((new {}).compile skipUnit .associative).2 := rfl

theorem skipSession_used : skipSession.Used := by
  rw [skipSession_eq]
  exact .compile skipUnit .associative (.new {})

theorem skipSession_traced : Traced (fun _ => False) (fun _ => False) skipSession := by
  rw [skipSession_eq]
  exact .compile skipUnit .associative ((Used.fit (.new {})).compile_safe _ _).1 (.new {})

theorem skipSession_classes :
    skipSession.classes.lineage 15 = [15, 14, 13, 12] ∧ skipSession.classes.lineage 13 = [13, 12] ∧
      (skipSession.symbol? ⟨.cls 12, 0⟩).map (fun x => (x.offset, x.isStatic)) = some (0, false) ∧
      (skipSession.symbol? ⟨.cls 15, 0⟩).map (fun x => (x.offset, x.isStatic)) = some (0, false) := by
  decide +kernel

theorem skipSession_layout :
    skipSession.classes.lineage 15 = [15, 14, 13, 12] ∧
      skipSession.classes.lineage 13 = [13, 12] ∧
      ∀ cls, skipSession.LaidApart cls ↔ ¬ skipSession.HasGap cls :=
  ⟨skipSession_classes.1, skipSession_classes.2.1,
    fun _ => skipSession_traced.layout skipSession_used fun _ _ => id⟩

/-- The first member of the last class has the place of the first member of the first one. -/
theorem skipUnit_collides :
    skipSession.Used ∧ 12 ∈ skipSession.classes.lineage 15 ∧ 15 ∈ skipSession.classes.lineage 15 ∧
      ∃ a b x y, a ≠ b ∧ skipSession.IsInstanceOf 12 a x ∧ skipSession.IsInstanceOf 15 b y ∧
        x.offset = y.offset := by
  have hmember (cls : Nat) (h : (skipSession.symbol? ⟨.cls cls, 0⟩).map
      (fun x => (x.offset, x.isStatic)) = some (0, false)) :
      ∃ x, skipSession.IsInstanceOf cls ⟨.cls cls, 0⟩ x ∧ x.offset = 0 := by
    obtain ⟨x, hx, heq⟩ := Option.map_eq_some_iff.mp h
    simp only [Prod.mk.injEq] at heq
    exact ⟨x, ⟨hx, rfl, heq.2⟩, heq.1⟩
  obtain ⟨hlineage, -, hfirst, hlast⟩ := skipSession_classes
  obtain ⟨x, hx, hxo⟩ := hmember 12 hfirst
  obtain ⟨y, hy, hyo⟩ := hmember 15 hlast
  rw [hlineage]
  exact ⟨skipSession_used, by decide, by decide, _, _, x, y, by decide, hx, hy, hxo.trans hyo.symm⟩

end Session

end Diglot
