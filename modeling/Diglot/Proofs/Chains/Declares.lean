import Diglot.Proofs.Access.Members
import Diglot.Proofs.Chains.Unspent
import Diglot.Proofs.Globals.Forward
import Diglot.Proofs.Harvest.Split
import Diglot.Proofs.Origins.Codes
import Diglot.Proofs.Variables.Initial

/-! # What the steps of a split chain declare

A name finds symbols of that name alone (`Sight.named_of_resolve`), so that code without made-up names accesses none
of the variables that are made up (`Sight.MayMean.isOld`).

`Frame.Declares` is what a step may declare: variables of some names only, while all others stand for what they did.
Looking ahead, the code of expressions and stores keep to the names of their trees.
-/

set_option autoImplicit false

namespace Diglot

open Lowering

/-! ## Names of what is found -/

namespace Lowering.Sight

variable {v : Sight} {name : String} {r : SymbolRef} {c : Cursor} {k : Nat} {n : Node}

/-- What is found in a class has the name that was looked for. -/
theorem named_of_inClass (hl : v.session.Listed) {cls : Nat} (h : v.inClass cls name = .found r) :
    ∃ x, v.session.symbol? r = some x ∧ x.name = name := by
  unfold inClass at h
  split at h
  · cases h
  · cases h
  next m hm =>
  obtain ⟨c, access, hc, hd, -⟩ := ClassTable.searchMember_accessible hm
  obtain ⟨i, hi, heq⟩ := Option.map_eq_some_iff.mp hd
  cases heq
  obtain ⟨y, hy, hname, -⟩ := (hl.classes _ c hc).name_of_findNamed? hi
  split at h
  · next r' hentry =>
    cases h
    split at hentry
    · obtain ⟨j, hj, rfl⟩ := Option.map_eq_some_iff.mp hentry
      obtain ⟨z, hz⟩ := isFirst_of_findNamed? hl hj
      exact ⟨z, hz.symbol, hz.named⟩
    · cases hentry
  · cases h
    refine ⟨y, ?_, hname⟩
    rw [Session.symbol?_cls, hc]
    exact hy

/-- What a name stands for has that name. -/
theorem named_of_resolve (hl : v.session.Listed) (h : v.resolve name = .found r) :
    ∃ x, v.session.symbol? r = some x ∧ x.name = name := by
  have hblock {block i : Nat} {p : Symbol → Bool} (hi : (v.symbolsOf block).findNamed? name p = some i) :
      ∃ x, v.session.symbol? ⟨.block block, i⟩ = some x ∧ x.name = name := by
    obtain ⟨x, hx⟩ := isFirst_of_findNamed? hl hi
    exact ⟨x, hx.symbol, hx.named⟩
  rcases resolve_found h with (hp | ⟨block, -, hb⟩) | ⟨cls, -, hc⟩
  · unfold inProcedure? at hp
    split at hp
    · obtain ⟨i, hi, rfl⟩ := Option.map_eq_some_iff.mp hp
      exact hblock hi
    · cases hp
  · obtain ⟨i, hi, rfl⟩ := Option.map_eq_some_iff.mp hb
    exact hblock hi
  · exact named_of_inClass hl hc

/-- A segment of a chain is found from its place at the root, and in a class behind other segments. -/
theorem segmentTarget_found (h : v.segmentTarget name c = .symbol r) :
    (c.depth = 0 ∧ v.resolve name = .found r) ∨ c.depth ≠ 0 ∧ ∃ cls, v.inClass cls name = .found r := by
  unfold segmentTarget at h
  split at h
  · next hroot =>
    unfold rootTarget at h
    dsimp only at h
    split at h
    · split at h <;> cases h
    · split at h
      · next hfound =>
        cases h
        exact .inl ⟨hroot, hfound⟩
      · cases h
      · split at h <;> cases h
  · next hbehind =>
    unfold memberTarget at h
    split at h
    · cases h
    · split at h
      · cases h
      · split at h
        · next hfound =>
          cases h
          exact .inr ⟨hbehind, _, hfound⟩
        · cases h
        · cases h

end Lowering.Sight

namespace Session

/-- The name of the symbol is none of those that are made up from the number `k` on. -/
def IsOld (s : Session) (k : Nat) (r : SymbolRef) : Prop := ∃ x, s.symbol? r = some x ∧ IsSpent k x.name

theorem HasNone.symbol_ne {s : Session} {name : String} (h : s.HasNone name) {r : SymbolRef} {x : Symbol}
    (hx : s.symbol? r = some x) : x.name ≠ name := by
  obtain ⟨owner, i⟩ := r
  cases owner with
  | block id =>
    rw [symbol?_block] at hx
    obtain ⟨hd, hheader, hx⟩ := Option.bind_eq_some_iff.mp hx
    exact (h.blocks id hd hheader).symbols i x hx
  | cls id =>
    rw [symbol?_cls] at hx
    obtain ⟨c, hc, hx⟩ := Option.bind_eq_some_iff.mp hx
    exact (h.classes id c hc).symbols i x hx

/-- No class has a member whose name is made up from the number `k` on. -/
def SparesClasses (s : Session) (k : Nat) : Prop :=
  ∀ j, k ≤ j → ∀ i c, s.classes.get? i = some c → c.symbols.Lacks (temporaryName j)

end Session

namespace Lowering.Sight

variable {v : Sight} {name : String} {r : SymbolRef} {k : Nat} {n : Node}

theorem isOld_of_inClass (hl : v.session.Listed) (hclasses : v.session.SparesClasses k) {cls : Nat}
    (h : v.inClass cls name = .found r) : v.session.IsOld k r := by
  obtain ⟨x, hx, rfl⟩ := named_of_inClass hl h
  refine ⟨x, hx, fun j hj heq => ?_⟩
  unfold inClass at h
  rw [heq, ClassTable.lookupMember_missing (hclasses j hj)] at h
  cases h

/-- A segment of a chain whose name was not made up stands for no variable that is made up from now on. -/
theorem MayMean.isOld (hl : v.session.Listed) (hclasses : v.session.SparesClasses k)
    (hn : ∀ ident, n = .identifier ident → IsPlainName ident.name) (h : v.MayMean n r) : v.session.IsOld k r := by
  obtain ⟨name, hname, c, hroot, htarget⟩ := h
  rcases segmentTarget_found htarget with ⟨hdepth, hfound⟩ | ⟨-, cls, hfound⟩
  · obtain ⟨ident, rfl⟩ := hroot hdepth
    obtain rfl := List.mem_singleton.mp hname
    obtain ⟨x, hx, hsame⟩ := named_of_resolve hl hfound
    exact ⟨x, hx, hsame ▸ (hn ident rfl).isSpent k⟩
  · exact isOld_of_inClass hl hclasses hfound

end Lowering.Sight

/-! ## What is declared on the way -/

namespace Lowering

variable {f : Frame} {s t u : State} {d : Declaration} {r : SymbolRef} {x : Symbol} {P Q : String → Prop}

/-- A variable that is declared comes to those that were there. -/
theorem Entered.symbol_cases (h : Entered f d r x s t) {r' : SymbolRef} {y : Symbol}
    (hy : t.session.symbol? r' = some y) : s.session.symbol? r' = some y ∨ r' = r ∧ y = x := by
  obtain ⟨hd, hblock, rfl, rfl⟩ := h.place
  obtain ⟨counters, hnames⟩ := h.names
  rw [hnames.symbol?_eq] at hy
  obtain ⟨owner, i⟩ := r'
  cases owner with
  | cls id => exact .inl hy
  | block id =>
    rw [Session.symbol?_block, Session.header?_enterLocal] at hy
    split at hy
    · next hown =>
      subst hown
      have hblock' : ({ s.session with counters } : Session).header? f.block = some hd := hblock
      rw [hblock', Option.map_some, Option.bind_some] at hy
      obtain hold | ⟨rfl, rfl⟩ := SymbolTable.get?_append_cases hy
      · refine .inl ?_
        rw [Session.symbol?_block, hblock]
        exact hold
      · exact .inr ⟨rfl, rfl⟩
    · exact .inl (by rwa [Session.symbol?_block])

/-- From `a` to `s` code of the frame declared variables with names of a kind only, and nothing was taken back. -/
structure Frame.Declares (f : Frame) (P : String → Prop) (a s : Session) : Prop where
  looksOut : f.LooksOut s
  listed : s.Listed
  classes : s.classes = a.classes
  kept : ∀ r x, a.symbol? r = some x → s.symbol? r = some x
  fresh : ∀ r x, s.symbol? r = some x → a.symbol? r = some x ∨ P x.name
  lacks : ∀ name, ¬ P name → a.HasNone name → s.HasNone name
  resolve : ∀ name, ¬ P name → (sightFrom f s).resolve name = (sightFrom f a).resolve name

namespace Frame.Declares

variable {a b c : Session}

theorem refl (P : String → Prop) (hlooks : f.LooksOut a) (hl : a.Listed) : f.Declares P a a :=
  ⟨hlooks, hl, rfl, fun _ _ h => h, fun _ _ h => .inl h, fun _ _ h => h, fun _ _ => rfl⟩

theorem congr (h : f.Declares P a b) (hnames : b.SameNames c) : f.Declares P a c where
  looksOut := h.looksOut.congr hnames
  listed := h.listed.congr hnames.classes hnames.headers
  classes := hnames.classes.trans h.classes
  kept r x hx := (hnames.symbol?_eq r).trans (h.kept r x hx)
  fresh r x hx := h.fresh r x ((hnames.symbol?_eq r).symm.trans hx)
  lacks name hname hnone := (h.lacks name hname hnone).congr hnames.headers hnames.classes
  resolve name hname := (Sight.resolve_sightFrom hnames f name).trans (h.resolve name hname)

theorem trans (h : f.Declares P a b) (h' : f.Declares P b c) : f.Declares P a c where
  looksOut := h'.looksOut
  listed := h'.listed
  classes := h'.classes.trans h.classes
  kept r x hx := h'.kept r x (h.kept r x hx)
  fresh r x hx := (h'.fresh r x hx).elim (h.fresh r x) .inr
  lacks name hname hnone := h'.lacks name hname (h.lacks name hname hnone)
  resolve name hname := (h'.resolve name hname).trans (h.resolve name hname)

theorem mono (h : f.Declares P a b) (hPQ : ∀ name, P name → Q name) : f.Declares Q a b :=
  ⟨h.looksOut, h.listed, h.classes, h.kept, fun r x hx => (h.fresh r x hx).imp_right (hPQ x.name),
    fun name hname => h.lacks name fun hP => hname (hPQ name hP),
    fun name hname => h.resolve name fun hP => hname (hPQ name hP)⟩

/-- Of the frame only its place among blocks and procedures matters. -/
theorem site {g : Frame} (h : f.Declares P a b) (hsite : g.site = f.site) : g.Declares P a b := by
  obtain ⟨block, scope, dialect⟩ := f
  obtain ⟨block', scope', dialect'⟩ := g
  cases hsite
  exact ⟨⟨h.looksOut.blocks, h.looksOut.body⟩, h.listed, h.classes, h.kept, h.fresh, h.lacks, h.resolve⟩

theorem entered (h : f.Declares P a s.session) (hd : Entered f d r x s t) (hname : P d.name) :
    f.Declares P a t.session := by
  have hx : x.name = d.name := by
    obtain ⟨hd, -, -, rfl⟩ := hd.place
    rfl
  have hextends := hd.extends_session
  obtain ⟨counters, hnames⟩ := hd.names
  refine ⟨hd.looksOut h.looksOut, ⟨hextends.indexed h.listed.blocks, ?_⟩, hnames.classes.trans h.classes, ?_, ?_, ?_,
    fun name hnot => ?_⟩
  · rw [hnames.classes]
    exact h.listed.classes
  · rintro ⟨owner, i⟩ y hy
    cases owner with
    | cls id =>
      rw [hnames.symbol?_eq]
      exact h.kept _ y hy
    | block id => exact hextends.symbol? (h.kept _ y hy)
  · intro r' y hy
    obtain hold | ⟨-, rfl⟩ := hd.symbol_cases hy
    · exact h.fresh r' y hold
    · exact .inr (hx ▸ hname)
  · intro name hnot hnone
    have hcounted : ({ s.session with counters } : Session).HasNone name :=
      (h.lacks name hnot hnone).congr rfl rfl
    refine (hcounted.enterLocal f.block (x := s.session.declared f d) fun heq => hnot ?_).congr hnames.headers
      hnames.classes
    rw [← heq]
    exact hname
  · have hne : name ≠ d.name := fun heq => hnot (heq ▸ hname)
    exact (hd.resolve_other h.listed.blocks hne).trans (h.resolve name hnot)

theorem endures (P : String → Prop) (a : Session) (f : Frame) : Endures (f.Declares P a) 0 f.block :=
  endures_of_sameNames (fun hnames h => h.congr hnames) f.block

theorem allocate (hown : f.IsOwn) (hname : P d.name) : Spares (f.Declares P a) f (Lowering.allocate d) := by
  intro s hs
  obtain ⟨r, x, t, hrun, hentered⟩ := run_allocate_entered hown hs.looksOut d
  rw [hrun]
  exact ⟨hs.entered hentered hname, fun _ _ _ => trivial⟩

/-- Looking ahead declares names that the unit assigns later. -/
theorem probe (hown : f.IsOwn) (hforward : ∀ name ∈ f.forward, P name) (node : Node) :
    Spares (f.Declares P a) f (Lowering.probe node) := by
  refine Sparing.probeDeclaring (endures P a f) (fun name => .withFrame ?_) node
  by_cases hname : f.forward.contains name = true
  · rw [if_pos hname]
    have hdeclare := allocate (a := a) (f := f) (d := { name, type := .var }) hown
      (hforward name (List.contains_iff_mem.mp hname))
    exact .andThen .sight fun v => .ite (.andThen hdeclare fun _ => .pure trivial) (.pure trivial)
  · rw [if_neg hname]
    exact .pure trivial

/-- Finding what a store goes to declares it unless it is there. -/
theorem targetSymbol (hown : f.IsOwn) (ident : Identifier) (type : Ty) (hname : P ident.name) :
    Spares (f.Declares P a) f (Lowering.targetSymbol ident type) := by
  refine Sparing.andThen .sight fun v => ?_
  have hdeclare := allocate (a := a) (f := f) (d := { name := ident.name, type := declaredType type }) hown hname
  split
  · exact .pure trivial
  · exact .andThen (.report (endures P a f) _ _ _) fun _ => hdeclare
  · exact hdeclare

/-- A store declares its target, if that is a plain name. -/
theorem assignTo (hown : f.IsOwn) (target : Node) (type : Ty)
    (htarget : ∀ ident, target = .identifier ident → P ident.name) :
    Spares (f.Declares P a) f (Lowering.assignTo target type) :=
  Sparing.assignFound (endures P a f) target type fun ident hident => targetSymbol hown ident type (htarget ident hident)

end Frame.Declares

end Lowering

end Diglot
