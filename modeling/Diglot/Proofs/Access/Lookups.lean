import Diglot.Proofs.Access.Members
import Diglot.Proofs.Slots.Inheritance
import Mathlib.Data.List.Chain
import Mathlib.Data.List.Perm.Subperm

/-! # Lookups along base classes

Three lookups walk along a class and its base classes: for a member variable, for a procedure, and for a
member variable whoever may use it. Where no class is a base class of itself the walk reaches every base
class, and all three are told by one list, that of the members that the classes on the way declare.

* `Acyclic` and `Descends`: the class with all its base classes, nearest first.
* `Session.declarations`: what these classes declare for a name, nearest first.
* `Chooses`: how a lookup chooses among declarations.
* `Acyclic.lookups`: the lookups choose among the same declarations.
-/

set_option autoImplicit false

namespace Diglot

/-- The first symbol of a name that stands outside of procedures, with its access. -/
def Class.firstOutside (name : String) (c : Class) : Option (Nat × Access) :=
  (c.symbols.symbols.toList.findIdx? fun x => x.name == name && x.function == none).map fun i =>
    (i, ((c.symbols.get? i).map Symbol.access).getD .isPublic)

/-- A table that lists the positions of its names finds the first symbol of a name. -/
theorem SymbolTable.Indexed.findNamed?_eq {t : SymbolTable} (h : t.Indexed) (name : String) (p : Symbol → Bool) :
    t.findNamed? name p = t.symbols.toList.findIdx? fun x => x.name == name && p x := by
  have hget (i : Nat) : t.get? i = t.symbols.toList[i]? := Array.getElem?_toList.symm
  cases hfind : t.findNamed? name p with
  | none =>
    refine (List.findIdx?_eq_none_iff.mpr fun x hx => Bool.eq_false_iff.mpr fun hmatch => ?_).symm
    obtain ⟨hname, hp⟩ := Bool.and_eq_true_iff.mp hmatch
    obtain ⟨i, hi⟩ := List.mem_iff_getElem?.mp hx
    obtain ⟨k, y, hk, -⟩ := h.findNamed?_le ((hget i).trans hi) hp
    rw [eq_of_beq hname, hfind] at hk
    cases hk
  | some i =>
    obtain ⟨x, hx, hname, hp, hfirst⟩ := h.first_of_findNamed? hfind
    obtain ⟨hi, rfl⟩ := List.getElem?_eq_some_iff.mp ((hget i).symm.trans hx)
    refine (List.findIdx?_eq_some_iff_getElem.mpr ⟨hi, ?_, fun j hj => ?_⟩).symm
    · rw [hname, hp, beq_self_eq_true]
      rfl
    · have hjx := (hget j).trans (List.getElem?_eq_getElem (hj.trans hi))
      rw [Bool.and_eq_true, not_and]
      intro hjname
      rw [hfirst j hj _ hjx (eq_of_beq hjname)]
      exact Bool.false_ne_true

namespace Session

variable {s : Session}

/-! ## Base classes -/

/-- The second class is the base class of the first. -/
def Base (s : Session) (cls b : Nat) : Prop := s.base? cls = some b

/-- No class is a base class of itself, at however many removes. -/
def Acyclic (s : Session) : Prop := ∀ cls, ¬ Relation.TransGen s.Base cls cls

/-- The classes are a class and all its base classes, nearest first. -/
inductive Descends (s : Session) : Nat → List Nat → Prop where
  | root {cls : Nat} (h : s.base? cls = none) : Descends s cls [cls]
  | derived {cls b : Nat} {rest : List Nat} (h : s.base? cls = some b) (hrest : Descends s b rest) :
      Descends s cls (cls :: rest)

/-- Where base classes are declared before, no class is a base class of itself. -/
theorem BasesFirst.acyclic (h : s.BasesFirst) : s.Acyclic := by
  have hlt {cls b : Nat} (hb : Relation.TransGen s.Base cls b) : b < cls := by
    induction hb with
    | single hb => exact h _ _ hb
    | tail _ hb ih => exact (h _ _ hb).trans ih
  exact fun cls hcls => Nat.lt_irrefl cls (hlt hcls)

theorem Descends.unique {cls : Nat} {classes others : List Nat} (h : s.Descends cls classes)
    (h' : s.Descends cls others) : others = classes := by
  induction h generalizing others with
  | root h =>
    cases h' with
    | root _ => rfl
    | derived hb _ => cases h.symm.trans hb
  | derived h _ ih =>
    cases h' with
    | root hb => cases hb.symm.trans h
    | derived hb hrest =>
      cases h.symm.trans hb
      rw [ih hrest]

/-- The classes that a class derives from are the class and its base classes. -/
theorem Descends.mem_iff {cls owner : Nat} {classes : List Nat} (h : s.Descends cls classes) :
    owner ∈ classes ↔ s.Derives cls owner := by
  induction h with
  | @root cls h =>
    rw [List.mem_singleton]
    constructor
    · rintro rfl
      exact .refl
    · intro hd
      rcases Relation.ReflTransGen.cases_head hd with heq | ⟨b, hb, -⟩
      · exact heq.symm
      · cases h.symm.trans hb
  | @derived cls b rest h _ ih =>
    rw [List.mem_cons, ih]
    constructor
    · rintro (rfl | hd)
      · exact .refl
      · exact .head h hd
    · intro hd
      rcases Relation.ReflTransGen.cases_head hd with heq | ⟨b', hb', hd⟩
      · exact .inl heq.symm
      · cases h.symm.trans hb'
        exact .inr hd

/-! ## The walk along base classes -/

theorem lineageFrom_cases (s : Session) (fuel cls : Nat) :
    s.Descends cls (s.classes.lineageFrom fuel cls) ∨
      (s.classes.lineageFrom fuel cls).length = fuel ∧
        ∀ c ∈ s.classes.lineageFrom fuel cls, c < s.classes.size := by
  induction fuel generalizing cls with
  | zero => exact .inr ⟨rfl, fun c hc => by cases hc⟩
  | succ fuel ih =>
    cases hb : s.base? cls with
    | none =>
      have hline : s.classes.lineageFrom (fuel + 1) cls = [cls] := by
        rw [ClassTable.lineageFrom, show (s.classes.get? cls).bind Class.base = none from hb]
      exact .inl (hline ▸ .root hb)
    | some b =>
      have hline : s.classes.lineageFrom (fuel + 1) cls = cls :: s.classes.lineageFrom fuel b := by
        rw [ClassTable.lineageFrom, show (s.classes.get? cls).bind Class.base = some b from hb]
      have hsize : cls < s.classes.size := by
        obtain ⟨c, hc, -⟩ := Option.bind_eq_some_iff.mp hb
        exact (Array.getElem?_eq_some_iff.mp hc).1
      rw [hline]
      rcases ih b with hwalk | ⟨hlen, hlt⟩
      · exact .inl (.derived hb hwalk)
      · refine .inr ⟨?_, List.forall_mem_cons.mpr ⟨hsize, hlt⟩⟩
        rw [List.length_cons, hlen]

/-- Every class on the walk is the base class of the one before. -/
theorem isChain_lineageFrom (s : Session) (fuel cls : Nat) :
    (s.classes.lineageFrom fuel cls).IsChain s.Base := by
  have hhead (fuel cls : Nat) : ∀ c ∈ (s.classes.lineageFrom fuel cls).head?, c = cls := by
    intro c hc
    cases fuel with
    | zero => cases hc
    | succ fuel =>
      unfold ClassTable.lineageFrom at hc
      split at hc <;> exact (Option.some.inj hc).symm
  induction fuel generalizing cls with
  | zero => exact .nil
  | succ fuel ih =>
    unfold ClassTable.lineageFrom
    split
    · next b hb =>
      refine List.isChain_cons.mpr ⟨fun c hc => ?_, ih b⟩
      rw [hhead fuel b c hc]
      exact hb
    · exact .singleton _

/-- Where no class is a base class of itself, the walk reaches every base class: it meets no class twice, so it
ends before it has met more classes than there are. -/
theorem Acyclic.descends (h : s.Acyclic) (cls : Nat) : s.Descends cls (s.classes.lineage cls) := by
  have hnodup : (s.classes.lineage cls).Nodup := by
    have hpairs : (s.classes.lineage cls).Pairwise (Relation.TransGen s.Base) :=
      List.isChain_iff_pairwise.mp ((isChain_lineageFrom s _ cls).imp fun _ _ => .single)
    refine hpairs.imp ?_
    rintro c _ hc rfl
    exact h c hc
  refine (lineageFrom_cases s (s.classes.size + 1) cls).resolve_right fun ⟨hlen, hlt⟩ => ?_
  have hsub : s.classes.lineage cls ⊆ List.range s.classes.size := fun c hc => List.mem_range.mpr (hlt c hc)
  have hle := (List.subperm_of_subset hnodup hsub).length_le
  rw [List.length_range] at hle
  change (s.classes.lineageFrom _ cls).length ≤ _ at hle
  omega

/-- A member is accessible exactly if its class permits the code to use it. -/
theorem Acyclic.isAccessible_iff (h : s.Acyclic) {ctx : Option Nat} {owner : Nat} {access : Access} :
    s.classes.isAccessible owner access ctx = true ↔ s.Permits ctx owner access := by
  refine ⟨permits_of_isAccessible, fun hp => ?_⟩
  cases hp with
  | isPublic => rfl
  | isPrivate hctx => exact beq_iff_eq.mpr hctx
  | isProtected cls hctx hd =>
    rw [hctx]
    exact List.contains_iff_mem.mpr ((h.descends cls).mem_iff.mpr hd)

/-! ## Declarations -/

/-- The members that classes declare in some way, each with its access. -/
def declarations (s : Session) (declared : Class → Option (Nat × Access)) (classes : List Nat) :
    List (MemberRef × Access) :=
  classes.filterMap fun owner => ((s.classes.get? owner).bind declared).map fun d => (⟨owner, d.1⟩, d.2)

theorem declarations_congr {first second : Class → Option (Nat × Access)}
    (h : ∀ owner c, s.classes.get? owner = some c → first c = second c) (classes : List Nat) :
    s.declarations first classes = s.declarations second classes := by
  refine congrArg (fun g => classes.filterMap g) (funext fun owner => ?_)
  cases hc : s.classes.get? owner with
  | none => rfl
  | some c =>
    rw [Option.bind_some, Option.bind_some, h owner c hc]

/-- A walk finds the first declaration that is accessible, or else remembers the first one at all. -/
theorem searchMember_eq (s : Session) (ctx : Option Nat) (declared : Class → Option (Nat × Access))
    (hidden : Option MemberRef) (classes : List Nat) :
    s.classes.searchMember ctx declared hidden classes =
      match (s.declarations declared classes).find? fun p => s.classes.isAccessible p.1.owner p.2 ctx with
      | some p => .found p.1
      | none =>
        match hidden.or ((s.declarations declared classes).head?.map Prod.fst) with
        | some m => .inaccessible m
        | none => .missing := by
  induction classes generalizing hidden with
  | nil => cases hidden <;> rfl
  | cons owner rest ih =>
    cases hd : (s.classes.get? owner).bind declared with
    | none =>
      have hstep : s.declarations declared (owner :: rest) = s.declarations declared rest := by
        simp only [declarations, List.filterMap_cons, hd, Option.map_none]
      rw [hstep, ← ih hidden]
      cases hidden <;> simp only [ClassTable.searchMember, hd]
    | some d =>
      have hstep : s.declarations declared (owner :: rest) =
          (⟨owner, d.1⟩, d.2) :: s.declarations declared rest := by
        simp only [declarations, List.filterMap_cons, hd, Option.map_some]
      rw [hstep, List.find?_cons]
      dsimp only
      cases ha : s.classes.isAccessible owner d.2 ctx with
      | true => cases hidden <;> simp [ClassTable.searchMember, hd, ha]
      | false =>
        cases hidden <;> simp [ClassTable.searchMember, hd, ha, ih]

/-! ## How lookups choose -/

/-- How a lookup from any scope chooses among the members that classes declare, nearest first. -/
structure Chooses (s : Session) (classes : List Nat) (members : List (MemberRef × Access))
    (lookup : Option Nat → MemberLookup) : Prop where
  /-- The first one that the code may use is found. -/
  found : ∀ ctx m, lookup ctx = .found m ↔
    ∃ before access after, members = before ++ (m, access) :: after ∧ s.Permits ctx m.owner access ∧
      ∀ p ∈ before, ¬ s.Permits ctx p.1.owner p.2
  /-- If there are some and the code may use none of them, the first one is inaccessible. -/
  inaccessible : ∀ ctx m, lookup ctx = .inaccessible m ↔
    members.head?.map Prod.fst = some m ∧ ∀ p ∈ members, ¬ s.Permits ctx p.1.owner p.2
  missing : ∀ ctx, lookup ctx = .missing ↔ members = []
  /-- What is found outside of all classes is found everywhere, unless something in a nearer class is. -/
  nearer : ∀ ctx m, lookup none = .found m →
    ∃ n before after, lookup ctx = .found n ∧ classes = before ++ n.owner :: after ∧ m.owner ∈ n.owner :: after

/-- What is permitted outside of all classes is permitted everywhere. -/
theorem Permits.anywhere {owner : Nat} {access : Access} (h : s.Permits none owner access) (ctx : Option Nat) :
    s.Permits ctx owner access := by
  cases h with
  | isPublic => exact .isPublic
  | isPrivate h => cases h
  | isProtected _ h => cases h

/-- Where the class of a declaration stands, and those of the declarations behind it. -/
theorem owner_of_declarations {declared : Class → Option (Nat × Access)} {classes : List Nat}
    {before after : List (MemberRef × Access)} {p : MemberRef × Access}
    (h : s.declarations declared classes = before ++ p :: after) :
    ∃ front back, classes = front ++ p.1.owner :: back ∧
      ∀ q ∈ p :: after, q.1.owner ∈ p.1.owner :: back := by
  have howner {owner : Nat} {q : MemberRef × Access}
      (hq : ((s.classes.get? owner).bind declared).map (fun d => ((⟨owner, d.1⟩ : MemberRef), d.2)) = some q) :
      q.1.owner = owner := by
    obtain ⟨d, -, rfl⟩ := Option.map_eq_some_iff.mp hq
    rfl
  obtain ⟨front, rest, rfl, -, hrest⟩ := List.filterMap_eq_append_iff.mp h
  obtain ⟨skipped, owner, back, rfl, -, hp, hback⟩ := List.filterMap_eq_cons_iff.mp hrest
  refine ⟨front ++ skipped, back, by rw [howner hp, List.append_assoc], fun q hq => ?_⟩
  rcases List.mem_cons.mp hq with rfl | hq
  · exact List.mem_cons_self
  · rw [← hback] at hq
    obtain ⟨c, hc, hq⟩ := List.mem_filterMap.mp hq
    rw [howner hq]
    exact List.mem_cons_of_mem _ hc

section
variable (h : s.Acyclic) (declared : Class → Option (Nat × Access)) (classes : List Nat) (ctx : Option Nat)
include h

/-- What is found is the first of the declarations that may be used. -/
theorem Acyclic.find?_declarations_eq_some (p : MemberRef × Access) :
    ((s.declarations declared classes).find? fun p => s.classes.isAccessible p.1.owner p.2 ctx) = some p ↔
      ∃ before after, s.declarations declared classes = before ++ p :: after ∧
        s.Permits ctx p.1.owner p.2 ∧ ∀ q ∈ before, ¬ s.Permits ctx q.1.owner q.2 := by
  simp only [List.find?_eq_some_iff_append, h.isAccessible_iff, Bool.not_eq_true', ← Bool.not_eq_true]
  tauto

theorem Acyclic.find?_declarations_eq_none :
    ((s.declarations declared classes).find? fun p => s.classes.isAccessible p.1.owner p.2 ctx) = none ↔
      ∀ p ∈ s.declarations declared classes, ¬ s.Permits ctx p.1.owner p.2 := by
  simp only [List.find?_eq_none, h.isAccessible_iff]

theorem Acyclic.searchMember_found_iff (m : MemberRef) :
    s.classes.searchMember ctx declared none classes = .found m ↔
      ∃ before access after, s.declarations declared classes = before ++ (m, access) :: after ∧
        s.Permits ctx m.owner access ∧ ∀ p ∈ before, ¬ s.Permits ctx p.1.owner p.2 := by
  have hfind := h.find?_declarations_eq_some declared classes ctx
  rw [searchMember_eq]
  cases hf : (s.declarations declared classes).find? _ with
  | some p =>
    constructor
    · rintro ⟨⟩
      obtain ⟨before, after, hsplit, hp, hbefore⟩ := (hfind p).mp hf
      exact ⟨before, p.2, after, hsplit, hp, hbefore⟩
    · rintro ⟨before, access, after, hsplit, hp, hbefore⟩
      cases hf.symm.trans ((hfind (m, access)).mpr ⟨before, after, hsplit, hp, hbefore⟩)
      rfl
  | none =>
    constructor
    · intro heq
      dsimp only at heq
      split at heq <;> cases heq
    · rintro ⟨before, access, after, hsplit, hp, hbefore⟩
      cases hf.symm.trans ((hfind (m, access)).mpr ⟨before, after, hsplit, hp, hbefore⟩)

end

/-- A walk along classes chooses among what they declare. -/
theorem Acyclic.chooses (h : s.Acyclic) (declared : Class → Option (Nat × Access)) (classes : List Nat) :
    s.Chooses classes (s.declarations declared classes)
      fun ctx => s.classes.searchMember ctx declared none classes := by
  have hfound := h.searchMember_found_iff declared classes
  refine ⟨hfound, fun ctx m => ?_, fun ctx => ?_, fun ctx m hm => ?_⟩
  · rw [searchMember_eq, ← h.find?_declarations_eq_none, Option.none_or]
    cases (s.declarations declared classes).find? _ with
    | some p => simp
    | none => cases (s.declarations declared classes).head?.map Prod.fst <;> simp
  · rw [searchMember_eq, Option.none_or]
    cases s.declarations declared classes with
    | nil => exact ⟨fun _ => rfl, fun _ => rfl⟩
    | cons p rest =>
      refine ⟨fun heq => ?_, fun heq => by cases heq⟩
      dsimp only [List.head?_cons, Option.map_some] at heq
      split at heq <;> cases heq
  · obtain ⟨before, access, after, hsplit, hpublic, -⟩ := (hfound none m).mp hm
    have hmem : (m, access) ∈ s.declarations declared classes := by
      rw [hsplit]
      exact List.mem_append_right _ List.mem_cons_self
    have hpermitted : s.Permits ctx m.owner access := hpublic.anywhere ctx
    cases hf : (s.declarations declared classes).find? fun p => s.classes.isAccessible p.1.owner p.2 ctx with
    | none => exact absurd hpermitted ((h.find?_declarations_eq_none declared classes ctx).mp hf _ hmem)
    | some p =>
      obtain ⟨before', after', hsplit', hp, hbefore'⟩ := (h.find?_declarations_eq_some declared classes ctx p).mp hf
      have hn : s.classes.searchMember ctx declared none classes = .found p.1 :=
        (hfound ctx p.1).mpr ⟨before', p.2, after', hsplit', hp, hbefore'⟩
      obtain ⟨front, back, hclasses, hbehind⟩ := owner_of_declarations hsplit'
      refine ⟨p.1, front, back, hn, hclasses, hbehind (m, access) ?_⟩
      -- nothing in front of what is found may be used, but the member may
      rw [hsplit'] at hmem
      exact (List.mem_append.mp hmem).resolve_left fun hin => hbefore' _ hin hpermitted

/-! ## The lookups agree -/

theorem anyMember?_eq (s : Session) (cls : Nat) (name : String) :
    s.classes.anyMember? cls name =
      (s.declarations (ClassTable.declaredSymbol name) (s.classes.lineage cls)).head?.map Prod.fst := by
  rw [declarations, List.head?_filterMap, ClassTable.anyMember?, List.map_findSome?]
  simp only [Function.comp_def, Option.map_map]

/-- **The class lookups agree on one definition.** Where no class is a base class of itself, a class has one list of base
classes, nearest first. The members that these declare for a name decide both what the lookup of a member variable
and what that without regard to access finds; the procedures that they declare for a name and a number of arguments
decide what the lookup of a procedure finds. -/
theorem Acyclic.lookups (h : s.Acyclic)
    (hindexed : ∀ owner c, s.classes.get? owner = some c → c.symbols.Indexed) (cls : Nat) (name : String)
    (arity : Nat) :
    ∃ classes, s.Descends cls classes ∧ (∀ others, s.Descends cls others → others = classes) ∧
      s.Chooses classes (s.declarations (Class.firstOutside name) classes) (s.classes.lookupMember cls name) ∧
      s.Chooses classes (s.declarations (ClassTable.declaredProcedure name arity) classes)
        (s.classes.lookupProcedure cls name arity) ∧
      s.classes.anyMember? cls name = (s.declarations (Class.firstOutside name) classes).head?.map Prod.fst ∧
      ∀ ctx, ((s.classes.anyMember? cls name).isSome ↔ (s.classes.lookupMember cls name ctx).exists? = true) ∧
        ∀ m, s.classes.lookupMember cls name ctx = .inaccessible m → s.classes.anyMember? cls name = some m := by
  have hdeclared : s.declarations (Class.firstOutside name) (s.classes.lineage cls) =
      s.declarations (ClassTable.declaredSymbol name) (s.classes.lineage cls) := by
    refine declarations_congr (fun owner c hc => ?_) _
    rw [Class.firstOutside, ClassTable.declaredSymbol, SymbolTable.indexInFunction?,
      (hindexed owner c hc).findNamed?_eq]
  have hdescends := h.descends cls
  have hmember := h.chooses (ClassTable.declaredSymbol name) (s.classes.lineage cls)
  have hany := anyMember?_eq s cls name
  refine ⟨s.classes.lineage cls, hdescends, fun others ho => hdescends.unique ho, ?_, h.chooses _ _, ?_, fun ctx =>
    ⟨?_, fun m hm => ?_⟩⟩
  · rw [hdeclared]
    exact hmember
  · rw [hdeclared]
    exact hany
  · have hmissing := hmember.missing ctx
    change s.classes.lookupMember cls name ctx = .missing ↔ _ at hmissing
    have hexists (r : MemberLookup) : r.exists? = true ↔ r ≠ .missing := by
      cases r <;> simp [MemberLookup.exists?]
    rw [hany, Option.isSome_map, List.isSome_head?, hexists]
    exact not_congr hmissing.symm
  · rw [hany]
    exact ((hmember.inaccessible ctx m).mp hm).1

/-- A class with a private and a public member, and one that derives from it. -/
def shapes : Session where
  options := {}
  classes :=
    ⟨#[{ name := "Shape",
         symbols := (({} : SymbolTable).append
          { name := "area", type := .unknown, classScope := some 0, access := .isPrivate }).append
            { name := "label", type := .unknown, classScope := some 0 } },
       { name := "Circle", base := some 0 }]⟩

theorem shapes_basesFirst : shapes.BasesFirst := by
  intro cls b hb
  match cls with
  | 0 => cases hb
  | 1 =>
    cases hb
    exact Nat.zero_lt_one
  | cls + 2 => cases hb

/-- The member that is hidden from the derived class is the one that a lookup without regard to access finds. -/
theorem private_member_agrees :
    shapes.Acyclic ∧ (∀ owner c, shapes.classes.get? owner = some c → c.symbols.Indexed) ∧
      shapes.classes.lookupMember 1 "area" (some 1) = .inaccessible ⟨0, 0⟩ ∧
      shapes.classes.anyMember? 1 "area" = some ⟨0, 0⟩ := by
  have hacyclic : shapes.Acyclic := shapes_basesFirst.acyclic
  have hindexed : ∀ owner c, shapes.classes.get? owner = some c → c.symbols.Indexed := by
    intro owner c hc
    match owner with
    | 0 =>
      cases hc
      exact (SymbolTable.indexed_empty.append _).append _
    | 1 =>
      cases hc
      exact SymbolTable.indexed_empty
    | owner + 2 => cases hc
  have hhidden : shapes.classes.lookupMember 1 "area" (some 1) = .inaccessible ⟨0, 0⟩ := by decide
  obtain ⟨_, -, -, -, -, -, hany⟩ := hacyclic.lookups hindexed 1 "area" 0
  exact ⟨hacyclic, hindexed, hhidden, (hany (some 1)).2 _ hhidden⟩

end Session

end Diglot
