import Diglot.Proofs.Variables.Surroundings

/-! # Names in the procedures of a class

`ClassBody` is the frame in which the procedures of a class are lowered, and `MethodBody` that of the body of one of
them. In the body of a procedure a name stands for a member of the class if it has one of that name, then for what the
procedure declares itself, and else for what it stands for in the body of the class.
-/

set_option autoImplicit false

namespace Diglot

namespace Lowering

variable {f g : Frame} {s t u : State}

/-! ## Names in the procedures of a class -/

/-- A table in which two conditions agree on all symbols finds the same. -/
theorem findNamed?_congr {t : SymbolTable} {p q : Symbol → Bool} (h : ∀ i x, t.get? i = some x → p x = q x)
    (name : String) : t.findNamed? name p = t.findNamed? name q := by
  rw [SymbolTable.findNamed?_eq_find?, SymbolTable.findNamed?_eq_find?]
  refine List.find?_congr fun i _ => ?_
  cases hx : t.get? i with
  | none => rfl
  | some x => exact h i x hx

theorem findSome?_congr {α β : Type} {l : List α} {k k' : α → Option β} (h : ∀ a ∈ l, k a = k' a) :
    l.findSome? k = l.findSome? k' := by
  induction l with
  | nil => rfl
  | cons a rest ih =>
    rw [List.findSome?_cons, List.findSome?_cons, h a (List.mem_cons_self ..),
      ih fun b hb => h b (List.mem_cons_of_mem a hb)]

/-- The blocks around a block are the same where the blocks have kept their parents. -/
theorem enclosingFrom_mono {s t : Session} (h : ∀ id hd, s.header? id = some hd →
    ∃ hd', t.header? id = some hd' ∧ hd'.parent = hd.parent) {n m : Nat} (hnm : n ≤ m) {id : Nat}
    {blocks : List Nat} (hblocks : s.enclosingFrom n id = some blocks) : t.enclosingFrom m id = some blocks := by
  induction n generalizing m id blocks with
  | zero => cases hblocks
  | succ n ih =>
    obtain ⟨m, rfl⟩ : ∃ k, m = k + 1 := ⟨m - 1, by omega⟩
    unfold Session.enclosingFrom at hblocks ⊢
    cases hb : s.block? id with
    | none =>
      rw [hb] at hblocks
      cases hblocks
    | some b =>
      obtain ⟨hd, hhd, hparent⟩ := h id b.header (Session.header?_of_block? hb)
      obtain ⟨c, hc, rfl⟩ := Session.header?_eq_some.mp hhd
      rw [hb] at hblocks
      rw [hc]
      dsimp only at hblocks ⊢
      rw [show c.parent = b.parent from hparent]
      cases hp : b.parent with
      | none =>
        rw [hp] at hblocks
        exact hblocks
      | some p =>
        rw [hp] at hblocks
        obtain ⟨rest, hrest, rfl⟩ := Option.map_eq_some_iff.mp hblocks
        exact Option.map_eq_some_iff.mpr ⟨rest, ih (by omega) hrest, rfl⟩

theorem mem_enclosingFrom_isSome {s : Session} {n id : Nat} {blocks : List Nat}
    (hblocks : s.enclosingFrom n id = some blocks) : ∀ b ∈ blocks, (s.header? b).isSome := by
  induction n generalizing id blocks with
  | zero => cases hblocks
  | succ n ih =>
    unfold Session.enclosingFrom at hblocks
    split at hblocks
    · cases hblocks
    next b hb =>
      have hself : (s.header? id).isSome := by
        rw [Session.header?_of_block? hb]
        rfl
      split at hblocks
      · cases hblocks
        intro b hb
        rwa [List.mem_singleton.mp hb]
      · obtain ⟨rest, hrest, rfl⟩ := Option.map_eq_some_iff.mp hblocks
        intro b hb
        obtain rfl | hb := List.mem_cons.mp hb
        · exact hself
        · exact ih hrest b hb

/-- The body of a class is lowered in the frame, and its members have been declared. -/
structure ClassBody (cls : Nat) (f : Frame) (s : Session) : Prop where
  scope : f.scope = .inClass cls
  notVoid : cls ≠ Primitive.void.uid
  isWatching : s.isWatching = false
  coherent : s.Coherent
  placed : f.Placed s
  looksOut : (s.enclosing? f.block).isSome

/-- In frame `g` and session `u` the body of a procedure of the class is lowered. -/
structure MethodBody (cls : Nat) (f : Frame) (s : Session) (g : Frame) (u : Session) : Prop where
  surrounds : s.Surrounds u
  size : s.blocks.size ≤ g.block
  classScope : g.scope.classScope = some cls
  isProcedure : g.scope.procedure.isSome
  body : g.scope.body = some g.block
  parent : ∃ hd, u.header? g.block = some hd ∧ hd.parent = some f.block
  coherent : u.Coherent
  placed : g.Placed u
  indexed : u.Indexed

section
variable {cls : Nat} {f g : Frame} {s u : Session} {name : String}

namespace ClassBody

theorem pos (h : ClassBody cls f s) : 0 < s.blocks.size := by
  obtain ⟨hd, hs, -⟩ := h.placed.block
  exact Nat.lt_of_le_of_lt (Nat.zero_le _) (Session.lt_of_header? hs)

theorem enclosing? (h : ClassBody cls f s) : s.enclosing? f.block = some (sightFrom f s).blocks := by
  obtain ⟨blocks, hblocks⟩ := Option.isSome_iff_exists.mp h.looksOut
  unfold sightFrom
  rw [hblocks, Option.getD_some]

/-- The symbols in the blocks around a class belong to no procedure. -/
theorem function_around (h : ClassBody cls f s) {id : Nat} (hid : id ∈ (sightFrom f s).blocks) {hd : Header}
    (hhd : s.header? id = some hd) {i : Nat} {x : Symbol} (hx : hd.symbols.get? i = some x) : x.function = none := by
  obtain ⟨hd', hhd', hproc⟩ := h.placed.block
  have hnone : hd.procedure = none := by
    cases hq : hd.procedure with
    | none => rfl
    | some q =>
      obtain ⟨p, hp, -⟩ := h.coherent.procedure_around h.enclosing? hhd' hid hhd hq
      rw [hproc, h.scope] at hp
      cases hp
  rw [(h.coherent.entries id hd hhd i x hx).2, hnone]
  rfl

end ClassBody

/-- Outside of nested blocks the members of the class go first, and then what stands in the blocks around. -/
theorem Sight.resolve_eq_getD {v : Sight} (hnested : v.isNested = false)
    (hvoid : v.frame.scope.classScope ≠ some Primitive.void.uid) (hw : v.session.isWatching = false) :
    v.resolve name = (v.memberFirst? name).getD (v.inBlocks name) := by
  unfold Sight.resolve Sight.memberFirst?
  rw [hnested, if_neg Bool.false_ne_true, if_neg Bool.false_ne_true]
  dsimp only
  rw [if_neg hvoid, hw, if_neg Bool.false_ne_true]
  unfold Sight.inScope
  cases v.frame.scope.classScope with
  | none => rfl
  | some cls =>
    rw [Option.bind_some]
    dsimp only
    cases v.inClass cls name <;> rfl

/-- A symbol that was found in the blocks around, or none. -/
def Resolution.ofFound : Option SymbolRef → Resolution
  | some r => .found r
  | none => .unbound

theorem Resolution.ofFound_eq_found {r : SymbolRef} {found : Option SymbolRef} (h : ofFound found = .found r) :
    found = some r := by
  cases found with
  | none => cases h
  | some r' =>
    cases h
    rfl

theorem Sight.inBlocks_of_none {v : Sight} (h : v.inProcedure? name = none) :
    v.inBlocks name = .ofFound (v.blocks.findSome? (v.inBlock? name)) := by
  unfold Sight.inBlocks
  rw [h]
  rfl

namespace ClassBody

theorem isNested (h : ClassBody cls f s) : (sightFrom f s).isNested = false := by
  unfold Sight.isNested
  change (f.scope.procedure.isSome && _) = false
  rw [h.scope]
  rfl

/-- In the body of the class there are members and what stands in the blocks around. -/
theorem resolve_eq (h : ClassBody cls f s) : (sightFrom f s).resolve name =
    ((sightFrom f s).memberFirst? name).getD
      (.ofFound ((sightFrom f s).blocks.findSome? ((sightFrom f s).inBlock? name))) := by
  have hvoid : (sightFrom f s).frame.scope.classScope ≠ some Primitive.void.uid := by
    change f.scope.classScope ≠ _
    rw [h.scope]
    exact fun heq => h.notVoid (Option.some.inj heq)
  have hproc : (sightFrom f s).inProcedure? name = none := by
    have hframe : (sightFrom f s).frame = f := rfl
    unfold Sight.inProcedure? Scope.function
    rw [hframe, h.scope]
    rfl
  rw [Sight.resolve_eq_getD h.isNested hvoid h.isWatching, Sight.inBlocks_of_none hproc]

end ClassBody

namespace MethodBody

variable (h : MethodBody cls f s g u)
include h

theorem isNested : (sightFrom g u).isNested = false := by
  unfold Sight.isNested Scope.isBody
  change (_ && !(g.scope.body == some g.block)) = false
  rw [h.body]
  simp

/-- Members are looked up as in the body of the class. -/
theorem inClass_eq (hs : ClassBody cls f s) (owner : Nat) :
    (sightFrom g u).inClass owner name = (sightFrom f s).inClass owner name := by
  have hcontext : (sightFrom g u).frame.scope.classScope = (sightFrom f s).frame.scope.classScope := by
    change g.scope.classScope = f.scope.classScope
    rw [h.classScope, hs.scope]
    rfl
  have hstatic (m : MemberRef) : (sightFrom g u).isStaticMember m = (sightFrom f s).isStaticMember m := by
    unfold Sight.isStaticMember
    change (((u.classes.get? m.owner).bind _).map _).getD _ = (((s.classes.get? m.owner).bind _).map _).getD _
    rw [h.surrounds.classes.bind_eq (fun _ => rfl)]
  have hfirst : (sightFrom g u).symbolsOf 0 = (sightFrom f s).symbolsOf 0 := by
    rw [Sight.symbolsOf_eq, Sight.symbolsOf_eq]
    exact congrArg (fun hd => (hd.map Header.symbols).getD {}) (h.surrounds.headers 0 hs.pos)
  have hentry (owner : Nat) : Sight.staticEntry? (sightFrom g u) owner name =
      Sight.staticEntry? (sightFrom f s) owner name := by
    unfold Sight.staticEntry?
    rw [hfirst]
  unfold Sight.inClass
  rw [hcontext, show (sightFrom g u).session.classes.lookupMember = _ from
    funext fun i => funext fun n => funext fun c => h.surrounds.classes.lookupMember_eq i n c]
  simp only [hstatic, hentry]
  rfl

theorem memberFirst?_eq (hs : ClassBody cls f s) :
    (sightFrom g u).memberFirst? name = (sightFrom f s).memberFirst? name := by
  unfold Sight.memberFirst?
  rw [h.isNested, hs.isNested, if_neg Bool.false_ne_true, if_neg Bool.false_ne_true]
  change g.scope.classScope.bind _ = f.scope.classScope.bind _
  rw [h.classScope, hs.scope]
  dsimp only [Scope.inClass, Option.bind_some]
  rw [h.inClass_eq hs cls]

theorem blocks (hs : ClassBody cls f s) :
    (sightFrom g u).blocks = g.block :: (sightFrom f s).blocks := by
  obtain ⟨hd, hhd, hparent⟩ := h.parent
  have hlt := Session.lt_of_header? hhd
  have hold (id : Nat) (hd : Header) (hid : s.header? id = some hd) :
      ∃ hd', u.header? id = some hd' ∧ hd'.parent = hd.parent :=
    ⟨hd, (h.surrounds.headers id (Session.lt_of_header? hid)).trans hid, rfl⟩
  have hsize := h.size
  have hrest := enclosingFrom_mono hold (m := u.blocks.size - 1) (by omega) hs.enclosing?
  have hsome : u.enclosing? g.block = some (g.block :: (sightFrom f s).blocks) := by
    obtain ⟨b, hb, rfl⟩ := Session.header?_eq_some.mp hhd
    unfold Session.enclosing?
    rw [show u.blocks.size = u.blocks.size - 1 + 1 by omega, Session.enclosingFrom, hb]
    dsimp only
    rw [show b.parent = some f.block from hparent]
    exact Option.map_eq_some_iff.mpr ⟨_, hrest, rfl⟩
  unfold sightFrom at hsome ⊢
  dsimp only
  rw [hsome, Option.getD_some]

/-- In the blocks around the class the body sees what the class sees. -/
theorem inBlock?_around (hs : ClassBody cls f s) {id : Nat} (hid : id ∈ (sightFrom f s).blocks) :
    (sightFrom g u).inBlock? name id = (sightFrom f s).inBlock? name id := by
  obtain ⟨hd, hhd⟩ := Option.isSome_iff_exists.mp (mem_enclosingFrom_isSome hs.enclosing? id hid)
  have hhd' : u.header? id = some hd := (h.surrounds.headers id (Session.lt_of_header? hhd)).trans hhd
  have hsymbols : (sightFrom f s).symbolsOf id = hd.symbols := by
    rw [Sight.symbolsOf_eq, show (sightFrom f s).session.header? id = some hd from hhd]
    rfl
  have hsymbols' : (sightFrom g u).symbolsOf id = hd.symbols := by
    rw [Sight.symbolsOf_eq, show (sightFrom g u).session.header? id = some hd from hhd']
    rfl
  unfold Sight.inBlock?
  rw [hsymbols, hsymbols', findNamed?_congr (q := (sightFrom f s).isVisible)]
  intro i x hx
  unfold Sight.isVisible
  rw [hs.function_around hid hhd hx]
  change (_ && !(u.isParsingModule && _) && _) = (_ && !(s.isParsingModule && _) && _)
  rw [h.surrounds.isParsingModule]
  rfl

theorem inProcedure?_eq (name : String) : ∃ hd q, u.header? g.block = some hd ∧ g.scope.procedure = some q ∧
    hd.procedure = some q ∧ (sightFrom g u).symbolsOf g.block = hd.symbols ∧
    (sightFrom g u).inProcedure? name = (hd.symbols.findNamed? name fun x => x.function == some q.index).map
      fun i => ⟨.block g.block, i⟩ := by
  obtain ⟨hd, hhd, hproc⟩ := h.placed.block
  obtain ⟨q, hq⟩ := Option.isSome_iff_exists.mp h.isProcedure
  have hsymbols : (sightFrom g u).symbolsOf g.block = hd.symbols := by
    rw [Sight.symbolsOf_eq, show (sightFrom g u).session.header? g.block = some hd from hhd]
    rfl
  refine ⟨hd, q, hhd, hq, hproc.trans hq, hsymbols, ?_⟩
  have hframe : (sightFrom g u).frame = g := rfl
  unfold Sight.inProcedure? Scope.function
  rw [hframe, hq, h.body]
  dsimp only [Option.map_some]
  rw [hsymbols]
  rfl

/-- In the body the members of the class go first as well. -/
theorem resolve_eq_getD (hs : ClassBody cls f s) : (sightFrom g u).resolve name =
    ((sightFrom f s).memberFirst? name).getD ((sightFrom g u).inBlocks name) := by
  have hvoid : (sightFrom g u).frame.scope.classScope ≠ some Primitive.void.uid := by
    change g.scope.classScope ≠ _
    rw [h.classScope]
    exact fun heq => hs.notVoid (Option.some.inj heq)
  rw [Sight.resolve_eq_getD h.isNested hvoid (h.surrounds.isWatching.trans hs.isWatching), h.memberFirst?_eq hs]

/-- The procedure has declared a name itself if and only if its table has the name. -/
theorem inProcedure?_eq_none_iff : (sightFrom g u).inProcedure? name = none ↔ u.Lacks g.block name := by
  obtain ⟨hd, q, hhd, -, hproc, -, heq⟩ := h.inProcedure?_eq name
  have hlacks : u.Lacks g.block name ↔ ∀ i x, hd.symbols.get? i = some x → x.name ≠ name := by
    unfold Session.Lacks
    simp only [Session.symbol?_block, hhd, Option.bind_some]
  rw [heq, Option.map_eq_none_iff, hlacks]
  constructor
  · rintro hnone i x hx rfl
    have hfunction := (h.coherent.entries g.block hd hhd i x hx).2
    rw [hproc, Option.map_some] at hfunction
    obtain ⟨j, -, hj, -⟩ := (h.indexed g.block hd hhd).findNamed?_le hx
      (p := fun x => x.function == some q.index) (by simp [hfunction])
    rw [hnone] at hj
    cases hj
  · exact fun hlacks => (h.indexed g.block hd hhd).findNamed?_eq_none hlacks _

/-- A name that the procedure has not declared itself stands for what it stands for in the body of the class. -/
theorem resolve_of_lacks (hs : ClassBody cls f s) (hlacks : u.Lacks g.block name) :
    (sightFrom g u).resolve name = (sightFrom f s).resolve name := by
  obtain ⟨hd, q, hhd, -, hproc, hsymbols, -⟩ := h.inProcedure?_eq name
  have hown : (sightFrom g u).inBlock? name g.block = none := by
    unfold Sight.inBlock?
    rw [hsymbols, (h.indexed g.block hd hhd).findNamed?_eq_none fun i x hx => hlacks i x ?_]
    · rfl
    · rw [Session.symbol?_block, hhd]
      exact hx
  have haround : (sightFrom f s).blocks.findSome? ((sightFrom g u).inBlock? name) =
      (sightFrom f s).blocks.findSome? ((sightFrom f s).inBlock? name) :=
    findSome?_congr fun id hid => h.inBlock?_around hs hid
  rw [h.resolve_eq_getD hs, hs.resolve_eq, Sight.inBlocks_of_none (h.inProcedure?_eq_none_iff.mpr hlacks), h.blocks hs,
    List.findSome?_cons_of_isNone (Option.isNone_iff_eq_none.mpr hown), haround]

/-- A name that the procedure has declared itself stands for that, unless a member of the class goes before. -/
theorem resolve_of_declared (hs : ClassBody cls f s) (hdeclared : ¬ u.Lacks g.block name)
    (hmember : (sightFrom f s).memberFirst? name = none) :
    ∃ i, (sightFrom g u).resolve name = .found ⟨.block g.block, i⟩ := by
  obtain ⟨hd, q, hhd, -, hproc, hsymbols, heq⟩ := h.inProcedure?_eq name
  rw [← h.inProcedure?_eq_none_iff, heq, Option.map_eq_none_iff] at hdeclared
  obtain ⟨i, hi⟩ := Option.ne_none_iff_exists'.mp hdeclared
  refine ⟨i, ?_⟩
  rw [h.resolve_eq_getD hs, hmember, Option.getD_none, Sight.inBlocks, heq, hi]
  rfl

end MethodBody

/-- In two procedures of a class a name stands for the same, if it does for a member of the class or if none of the
two has declared it itself, and only then. -/
theorem MethodBody.resolve_eq_iff (hs : ClassBody cls f s) (h : MethodBody cls f s g u) {g' : Frame} {u' : Session}
    (h' : MethodBody cls f s g' u') (hne : g.block ≠ g'.block) :
    (sightFrom g u).resolve name = (sightFrom g' u').resolve name ↔
      ((sightFrom f s).memberFirst? name).isSome ∨ u.Lacks g.block name ∧ u'.Lacks g'.block name := by
  cases hmember : (sightFrom f s).memberFirst? name with
  | some resolution =>
    refine iff_of_true ?_ (.inl rfl)
    rw [h.resolve_eq_getD hs, h'.resolve_eq_getD hs, hmember, Option.getD_some, Option.getD_some]
  | none =>
    -- Symbols in the blocks around the class are in none of the two bodies.
    have houter (r : SymbolRef) (hr : (sightFrom f s).resolve name = .found r) {block : Nat}
        (hblock : s.blocks.size ≤ block) (i : Nat) : r ≠ ⟨.block block, i⟩ := by
      rintro rfl
      rw [hs.resolve_eq, hmember, Option.getD_none] at hr
      obtain ⟨id, hid, hfound⟩ := List.exists_of_findSome?_eq_some (Resolution.ofFound_eq_found hr)
      obtain ⟨j, -, hj⟩ := Option.map_eq_some_iff.mp hfound
      obtain rfl : id = block := Owner.block.inj (congrArg SymbolRef.owner hj)
      obtain ⟨hd, hhd⟩ := Option.isSome_iff_exists.mp (mem_enclosingFrom_isSome hs.enclosing? id hid)
      exact absurd (Session.lt_of_header? hhd) (by omega)
    have hbody {g : Frame} {u : Session} (h : MethodBody cls f s g u) {i : Nat} {ρ : Resolution} {g' : Frame}
        {u' : Session} (h' : MethodBody cls f s g' u') (hne : g.block ≠ g'.block)
        (hi : (sightFrom g u).resolve name = .found ⟨.block g.block, i⟩) (hρ : (sightFrom g' u').resolve name = ρ) :
        ρ ≠ .found ⟨.block g.block, i⟩ := by
      rintro rfl
      by_cases hlacks : u'.Lacks g'.block name
      · rw [h'.resolve_of_lacks hs hlacks] at hρ
        exact houter _ hρ h.size i rfl
      · obtain ⟨j, hj⟩ := h'.resolve_of_declared hs hlacks hmember
        rw [hj] at hρ
        exact hne (Owner.block.inj (congrArg SymbolRef.owner (Resolution.found.inj hρ))).symm
    constructor
    · intro heq
      refine .inr ⟨Classical.byContradiction fun hlacks => ?_, Classical.byContradiction fun hlacks => ?_⟩
      · obtain ⟨i, hi⟩ := h.resolve_of_declared hs hlacks hmember
        exact hbody h h' hne hi heq.symm hi
      · obtain ⟨i, hi⟩ := h'.resolve_of_declared hs hlacks hmember
        exact hbody h' h hne.symm hi heq hi
    · rintro (hnone | ⟨hlacks, hlacks'⟩)
      · cases hnone
      · rw [h.resolve_of_lacks hs hlacks, h'.resolve_of_lacks hs hlacks']

end

end Lowering

end Diglot
