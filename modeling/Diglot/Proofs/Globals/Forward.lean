import Diglot.Proofs.Anchors.Passes
import Diglot.Proofs.Globals.Session
import Diglot.Proofs.Paths.Matching
import Diglot.Proofs.Tables.Addressing

/-! # Names that a unit assigns later

At the top level of an associative unit a name can be read before the statement that assigns it. Looking
ahead into the value of each statement declares such names, wherever it comes upon them (`Node.Ahead`), and
from then on they stand for symbols, so that no read of them is reported (`Used.read_ahead`).

Looking ahead does not come upon the root of a chain (`chain_root_unbound`), nor upon the subscripts of calls
and of segments of chains.
-/

set_option autoImplicit false

namespace Diglot

/-! ## What looking ahead comes upon -/

/-- The arguments of a call. -/
def Node.arguments : Node → List Node
  | .call c => c.args
  | _ => []

/-- The parts of an expression that looking ahead goes on to: of a chain, the arguments of its calls. -/
def Node.partsAhead (n : Node) : List Node :=
  match n with
  | .identifier ident => ident.dims
  | .call c => c.args
  | .member .. =>
    match n.segments with
    | .ok segments => segments.flatMap fun m => m.unwrap.arguments
    | .error _ => []
  | .list items dims _ _ => items ++ dims
  | .range first last step _ => first :: last :: step.toList
  | .unary _ operand _ => [operand]
  | .binary left _ right _ => [left, right]
  | .group inner dims guides _ =>
    if Lowering.isMovable inner dims then [inner.ungroup dims guides] else inner :: dims
  | _ => []

/-- Looking ahead into the expression comes upon the name as that of a variable. -/
inductive Node.Ahead (name : String) : Node → Prop where
  | alone {ident : Identifier} : ident.isThis = false → ident.name = name →
      Ahead name (.identifier ident)
  | part {n m : Node} : m ∈ n.partsAhead → Ahead name m → Ahead name n

open Lowering

/-- What is found in a block is a visible symbol of that name. -/
theorem Lowering.Sight.inBlock?_named {v : Sight} (hindexed : v.session.Indexed) {name : String} {id : Nat}
    {r : SymbolRef} (h : v.inBlock? name id = some r) :
    ∃ i x, r = ⟨.block id, i⟩ ∧ x.name = name ∧ v.session.symbol? ⟨.block id, i⟩ = some x ∧
      v.isVisible x = true := by
  obtain ⟨i, hi, rfl⟩ := Option.map_eq_some_iff.mp h
  cases hheader : v.session.header? id with
  | none =>
    rw [symbolsOf_eq, hheader] at hi
    cases hi
  | some hd =>
    rw [symbolsOf_eq, hheader] at hi
    obtain ⟨x, hx, hname, hvisible⟩ := (hindexed id hd hheader).name_of_findNamed? hi
    refine ⟨i, x, rfl, hname, ?_, hvisible⟩
    rw [Session.symbol?_block, hheader]
    exact hx

theorem Lowering.AtTop.blocks {f : Frame} {s : Session} (h : AtTop f.block s) :
    (sightFrom f s).blocks = Session.topBlocks f.block := by
  unfold sightFrom
  rw [h.isTop.enclosing?]
  rfl

/-! ## Names that the top level sees -/

namespace Session

/-- At the top level of the unit in the block there is a variable of the name. -/
def Sees (s : Session) (block : Nat) (name : String) : Prop :=
  ∃ id ∈ topBlocks block, ∃ i x, s.symbol? ⟨.block id, i⟩ = some x ∧ x.name = name ∧
    x.isMember = false ∧ x.function = none ∧ (x.library = none ∨ s.isParsingModule = false)

variable {s t : Session} {block : Nat} {name : String} {f : Frame}

theorem Sees.evolves {K : OpCode → Prop} (h : s.Sees block name) (he : Evolves K f s t) :
    t.Sees block name := by
  obtain ⟨id, hid, i, x, hx, hname, hmember, hfunction, hlibrary⟩ := h
  refine ⟨id, hid, i, x, he.extends.symbol? hx, hname, hmember, hfunction, ?_⟩
  exact hlibrary.imp_right (invariant_isParsingModule.evolves he)

/-- What the top level sees is found there. -/
theorem Sees.resolve (h : s.Sees f.block name) (htop : AtTop f.block s) (hscope : f.scope = .global) :
    ∃ r, (sightFrom f s).resolve name = .found r := by
  obtain ⟨id, hid, i, x, hx, rfl, hmember, hfunction, hlibrary⟩ := h
  have hvisible : (sightFrom f s).isVisible x = true := by
    have hparse : (s.isParsingModule && x.library.isSome) = false := by
      obtain hnone | hparse := hlibrary
      · rw [hnone]
        exact Bool.and_false _
      · rw [hparse]
        rfl
    unfold Sight.isVisible sightFrom
    rw [hmember, hfunction, hparse]
    rfl
  have hfound : (sightFrom f s).inBlock? x.name id ≠ none := by
    rw [symbol?_block] at hx
    obtain ⟨hd, hheader, hget⟩ := Option.bind_eq_some_iff.mp hx
    obtain ⟨j, _, hfind, _⟩ := (htop.indexed id hd hheader).findNamed?_le hget hvisible
    have hsymbols : (sightFrom f s).symbolsOf id = hd.symbols := by
      rw [Sight.symbolsOf_eq]
      change ((s.header? id).map _).getD _ = _
      rw [hheader]
      rfl
    unfold Sight.inBlock?
    rw [hsymbols, hfind]
    nofun
  rw [Sight.resolve_top hscope, htop.blocks]
  cases hsome : (topBlocks f.block).findSome? ((sightFrom f s).inBlock? x.name) with
  | some r => exact ⟨r, rfl⟩
  | none => exact absurd (List.findSome?_eq_none_iff.mp hsome id hid) hfound

/-- What is found at the top level is seen there. -/
theorem sees_of_found (htop : AtTop f.block s) (hscope : f.scope = .global) {r : SymbolRef}
    (h : (sightFrom f s).resolve name = .found r) : s.Sees f.block name := by
  rw [Sight.resolve_top hscope, htop.blocks] at h
  cases hsome : (topBlocks f.block).findSome? ((sightFrom f s).inBlock? name) with
  | none =>
    rw [hsome] at h
    cases h
  | some r' =>
    obtain ⟨id, hid, hin⟩ := List.exists_of_findSome?_eq_some hsome
    obtain ⟨i, x, _, hname, hx, hvisible⟩ := Sight.inBlock?_named htop.indexed hin
    have hfunction : f.scope.function = none := by
      rw [hscope]
      rfl
    change (!x.isMember && !(s.isParsingModule && x.library.isSome) &&
      (x.function.isNone || x.function == f.scope.function)) = true at hvisible
    rw [hfunction] at hvisible
    simp only [Bool.and_eq_true, Bool.not_eq_true', Bool.and_eq_false_iff] at hvisible
    obtain ⟨⟨hmember, hlibrary⟩, hfunction⟩ := hvisible
    refine ⟨id, hid, i, x, hx, hname, hmember, by simpa using hfunction, ?_⟩
    obtain hparse | hlibrary := hlibrary
    · exact .inr hparse
    · exact .inl (by simpa using hlibrary)

end Session

namespace Lowering

/-! ## Looking ahead at the top level -/

variable {f : Frame} {name : String}

/-- The top level, as far as the classes have no such name. -/
structure AtLevel (name : String) (f : Frame) (s : Session) : Prop where
  top : AtTop f.block s
  noClass : s.classes.indexOf? name = none

/-- Where lowering stays at the top level, with the same classes. -/
theorem hosts_classes (hscope : f.scope = .global) (classes : ClassTable) :
    Hosts (fun s => s.classes = classes ∧ s.isWatching = false) 0 (fun _ => True) f where
  endures := {
    log := fun _ _ h => h
    diagnostics := fun _ _ h => h
    emit := fun s i span _ h =>
      have hsame := s.sameNames_emit f.block i span
      ⟨hsame.classes.trans h.1, hsame.isWatching.trans h.2⟩
    lateVariable := fun _ _ h => h
    lateMember := fun _ _ _ _ h => h
    lateFunction := fun _ _ h => h
    known := fun _ _ => Nat.zero_le _ }
  isWatching _ h := h.2
  temporaries _ _ h := h
  uid _ _ h := h
  code _ _ _ _ h := h
  unseen _ _ _ _ _ _ _ _ := trivial
  allocate g d hsite _ _ := by
    have hg : g.scope = .global := (congrArg Frame.scope hsite).trans hscope
    refine .withFrame (.withSession fun s hs => .andThen (.modifySession fun t ht => ht) fun _ => ?_)
    have hbucket : bucketOf s.isWatching g.scope d.isStatic = .global := by
      rw [hs.2, hg]
      rfl
    rw [hbucket]
    refine .withFrame (.andThen (.getBlock _) fun b => .andThen (.modifySession fun t ht => ht) fun _ => ?_)
    exact .pure trivial

/-- A run that finishes stays at the top level, and what was seen there stays seen. -/
def StaysLevel (name : String) (f : Frame) (m : Lower Unit) : Prop :=
  ∀ s t, AtLevel name f s.session → m f s = .ok () t →
    AtLevel name f t.session ∧ (s.session.Sees f.block name → t.session.Sees f.block name)

/-- Behind a run that finishes the top level sees a variable of the name. -/
def Finds (name : String) (f : Frame) (m : Lower Unit) : Prop :=
  ∀ s t, AtLevel name f s.session → m f s = .ok () t → t.session.Sees f.block name

theorem StaysLevel.ofEvolving {m : Lower Unit} (he : Evolving (fun _ => True) m)
    (hspares : ∀ classes, Spares (fun s => s.classes = classes ∧ s.isWatching = false) f m) :
    StaysLevel name f m := by
  intro s t hs hrun
  have hevolves := he f s
  have hsame := (hspares s.session.classes s ⟨rfl, hs.top.isWatching⟩).1
  rw [hrun] at hevolves hsame
  have hend : Evolves (fun _ => True) f.site s.session t.session := hevolves
  have hclasses : t.session.classes = s.session.classes := hsame.1
  exact ⟨⟨hs.top.evolves hend, hclasses ▸ hs.noClass⟩, fun h => h.evolves hend⟩

namespace StaysLevel

theorem pure : StaysLevel name f (Pure.pure ()) := by
  intro s t hs hrun
  cases hrun
  exact ⟨hs, id⟩

theorem bind {m k : Lower Unit} (hm : StaysLevel name f m) (hk : StaysLevel name f k) :
    StaysLevel name f (m >>= fun _ => k) := by
  intro s t hs hrun
  obtain ⟨_, u, hfirst, hrest⟩ := bind_eq_ok.mp hrun
  obtain ⟨hu, hsees⟩ := hm s u hs hfirst
  obtain ⟨ht, hsees'⟩ := hk u t hu hrest
  exact ⟨ht, hsees' ∘ hsees⟩

theorem ite {c : Prop} [Decidable c] {m k : Lower Unit} (hm : StaysLevel name f m)
    (hk : StaysLevel name f k) : StaysLevel name f (if c then m else k) := by
  split
  · exact hm
  · exact hk

theorem forM {α : Type} {l : List α} {k : α → Lower Unit} (h : ∀ a, StaysLevel name f (k a)) :
    StaysLevel name f (l.forM k) := by
  induction l with
  | nil => exact pure
  | cons a rest ih => exact bind (h a) ih

variable (hscope : f.scope = .global)
include hscope

theorem declareForward (other : String) : StaysLevel name f (declareForward other) :=
  ofEvolving (Evolving.free.declareForward _) fun classes => .declareForward (hosts_classes hscope classes) _

theorem probeSegment {part : ProbePart} (hpart : ∀ n, StaysLevel name f (part n)) (isSingle : Bool)
    (n : Node) : StaysLevel name f (probeSegment part isSingle n) := by
  unfold Lowering.probeSegment
  split
  · exact ite (bind (forM hpart) (ite (declareForward hscope _) pure)) pure
  · exact forM hpart
  · exact pure

theorem probeWithin (depth : Nat) (n : Node) : StaysLevel name f (probeWithin depth n) := by
  have hevolves (n : Node) : Evolving (fun _ => True) (Lowering.probeWithin depth n) := by
    induction depth generalizing n with
    | zero => exact .defect _
    | succ depth ih => exact Evolving.free.probeNode ih n
  have hspares (classes : ClassTable) (n : Node) :
      Spares (fun s => s.classes = classes ∧ s.isWatching = false) f (Lowering.probeWithin depth n) := by
    clear hevolves
    induction depth generalizing n with
    | zero => exact .defect _
    | succ depth ih =>
      have hhosts := hosts_classes (f := f) hscope classes
      exact .probeNode hhosts.endures (.declareForward hhosts) ih n
  exact ofEvolving (hevolves n) fun classes => hspares classes n

end StaysLevel

/-- What is declared at the top level is seen there. -/
theorem sees_allocate {s t : State} (hs : AtTop f.block s.session) (hscope : f.scope = .global)
    {d : Declaration} {r : SymbolRef} (hrun : allocate d f s = .ok r t) :
    t.session.Sees f.block d.name := by
  obtain ⟨_, _, hok⟩ | ⟨e, u, herror⟩ := allocate_cases d f s
  · rw [hok] at hrun
    cases hrun
    obtain ⟨cls, counters, _, _, hcls, _⟩ | ⟨counters, _, _, heq⟩ := s.session.declare_cases f d
    · rw [hscope] at hcls
      cases hcls
    · have hblock : ∃ hd, s.session.header? f.block = some hd := by
        by_cases hzero : f.block = 0
        · obtain ⟨hd, hfirst, _⟩ := hs.isTop.first
          exact ⟨hd, hzero ▸ hfirst⟩
        · obtain ⟨hd, hinner, _⟩ := hs.isTop.inner hzero
          exact ⟨hd, hinner⟩
      obtain ⟨hd, hblock⟩ := hblock
      let x := s.session.declared f d
      change (s.session.declare f d).Sees f.block d.name
      rw [heq]
      refine ⟨f.block, ?_, hd.symbols.size, { x with position := hd.symbols.size }, ?_, rfl, ?_, ?_, .inl rfl⟩
      · unfold Session.topBlocks
        split <;> simp_all
      · have hblock' : ({ s.session with counters } : Session).header? f.block = some hd := hblock
        rw [Session.symbol?_block, Session.header?_enterLocal, if_pos rfl, hblock']
        exact SymbolTable.get?_append_size hd.symbols x
      · have hclass : x.classScope = f.scope.classScope := rfl
        simp [Symbol.isMember, hclass, hscope, Scope.global]
      · change f.scope.function = none
        rw [hscope]
        rfl
  · rw [herror] at hrun
    cases hrun

namespace Finds

theorem first {m k : Lower Unit} (hm : Finds name f m) (hsteady : StaysLevel name f m)
    (hk : StaysLevel name f k) : Finds name f (m >>= fun _ => k) := by
  intro s t hs hrun
  obtain ⟨_, u, hfirst, hrest⟩ := bind_eq_ok.mp hrun
  exact (hk u t (hsteady s u hs hfirst).1 hrest).2 (hm s u hs hfirst)

theorem andThen {m k : Lower Unit} (hm : StaysLevel name f m) (hk : Finds name f k) :
    Finds name f (m >>= fun _ => k) := by
  intro s t hs hrun
  obtain ⟨_, u, hfirst, hrest⟩ := bind_eq_ok.mp hrun
  exact hk u t (hm s u hs hfirst).1 hrest

theorem forM {α : Type} {l : List α} {k : α → Lower Unit} {a : α} (ha : a ∈ l) (h : Finds name f (k a))
    (hsteady : ∀ a, StaysLevel name f (k a)) : Finds name f (l.forM k) := by
  induction l with
  | nil => cases ha
  | cons b rest ih =>
    obtain rfl | ha := List.mem_cons.mp ha
    · exact first h (hsteady a) (.forM hsteady)
    · exact andThen (hsteady b) (ih ha)

/-- A name that the unit assigns is declared unless it is found already. -/
theorem declareForward (hscope : f.scope = .global) (hforward : name ∈ f.forward) :
    Finds name f (declareForward name) := by
  intro s t hs hrun
  obtain ⟨g, u, hread, hbody⟩ := bind_eq_ok.mp hrun
  cases hread
  rw [if_pos (List.contains_iff_mem.mpr hforward)] at hbody
  obtain ⟨v, u, hsight, hrest⟩ := bind_eq_ok.mp hbody
  obtain ⟨hu, hv, hblocks, _⟩ := sight_eq_ok.mp hsight
  have hsightFrom : v = sightFrom f s.session := by
    rw [hv]
    unfold sightFrom
    rw [hblocks]
    rfl
  rw [hsightFrom, hu] at hrest
  cases hr : (sightFrom f s.session).resolve name with
  | found r =>
    rw [if_neg (by rw [hr]; simp)] at hrest
    cases hrest
    exact Session.sees_of_found hs.top hscope hr
  | inaccessible r =>
    rw [Sight.resolve_top hscope] at hr
    split at hr <;> cases hr
  | unbound =>
    have hnone : (sightFrom f s.session).session.classes.indexOf? name = none := hs.noClass
    rw [if_pos (by rw [hr, hnone]; rfl)] at hrest
    obtain ⟨r, w, hallocate, hend⟩ := bind_eq_ok.mp hrest
    cases hend
    exact sees_allocate hs.top hscope hallocate

section
variable {part : ProbePart} (hscope : f.scope = .global) (hsteady : ∀ n, StaysLevel name f (part n))
include hscope hsteady

/-- Looking ahead into a lone identifier declares its name, behind its subscripts. -/
theorem probeIdentifier {ident : Identifier} (hthis : ident.isThis = false) (hname : ident.name = name)
    (hforward : name ∈ f.forward) : Finds name f (probeIdentifier part ident) := by
  unfold Lowering.probeIdentifier
  refine andThen (.forM hsteady) ?_
  rw [hthis, hname]
  exact declareForward hscope hforward

omit hscope in
theorem probeSegment {n m : Node} (hm : m ∈ n.arguments) (h : Finds name f (part m)) (isSingle : Bool) :
    Finds name f (probeSegment part isSingle n) := by
  cases n with
  | call c => exact forM hm h hsteady
  | _ => cases hm

/-- Looking ahead into a chain goes on to the arguments of its calls. -/
theorem probeChain {l : List Node} {n m : Node} (hn : n ∈ l) (hm : m ∈ n.unwrap.arguments)
    (h : Finds name f (part m)) : Finds name f (probeChain part l) := by
  have hsegment (n : Node) (isSingle : Bool) : StaysLevel name f (Lowering.probeSegment part isSingle n) :=
    .probeSegment hscope hsteady isSingle n
  unfold Lowering.probeChain
  rw [if_neg (by simpa using List.ne_nil_of_mem hn)]
  exact forM (List.mem_map_of_mem hn) (probeSegment hsteady hm h _) fun n => hsegment n _

/-- Looking ahead into an expression goes on to its parts. -/
theorem probeNode {n m : Node} (hm : m ∈ n.partsAhead) (h : Finds name f (part m)) :
    Finds name f (probeNode part n) := by
  unfold Node.partsAhead at hm
  unfold Lowering.probeNode
  cases n with
  | identifier ident =>
    have hidentifier : Finds name f (Lowering.probeIdentifier part ident) :=
      first (forM hm h hsteady) (.forM hsteady) (.ite (.declareForward hscope _) .pure)
    exact first hidentifier (.probeSegment hscope hsteady true (.identifier ident)) .pure
  | call c => exact probeChain hscope hsteady (List.mem_singleton_self _) hm h
  | member left right op lastFactor span =>
    dsimp only at hm ⊢
    split at hm
    · next segments hsegments =>
      obtain ⟨n, hn, hm⟩ := List.mem_flatMap.mp hm
      unfold chainSegments
      rw [hsegments]
      exact probeChain hscope hsteady hn hm h
    · cases hm
  | list items dims guides span => exact forM hm h hsteady
  | range firstNode lastNode step span =>
    simp only [List.mem_cons] at hm
    obtain rfl | rfl | hm := hm
    · exact first h (hsteady _) (.bind (hsteady _) (.forM hsteady))
    · exact andThen (hsteady _) (first h (hsteady _) (.forM hsteady))
    · exact andThen (hsteady _) (andThen (hsteady _) (forM hm h hsteady))
  | unary op operand span =>
    rw [List.mem_singleton.mp hm] at h
    exact h
  | binary left op right span =>
    simp only [List.mem_cons, List.not_mem_nil, or_false] at hm
    dsimp only
    split
    · intro s t _ hrun
      cases hrun
    · obtain rfl | rfl := hm
      · exact first h (hsteady _) (hsteady _)
      · exact andThen (hsteady _) h
  | group inner dims guides span =>
    dsimp only at hm ⊢
    split at hm
    · next hmovable =>
      rw [if_pos hmovable]
      rw [List.mem_singleton.mp hm] at h
      exact h
    · next hmovable =>
      rw [if_neg hmovable]
      obtain rfl | hm := List.mem_cons.mp hm
      · exact first h (hsteady _) (.forM hsteady)
      · exact andThen (hsteady _) (forM hm h hsteady)
  | _ => cases hm

end

/-- Once looking ahead came upon a name that the unit assigns, the name stands for a variable. -/
theorem probeWithin (hscope : f.scope = .global) (hforward : name ∈ f.forward) {n : Node}
    (h : n.Ahead name) (depth : Nat) : Finds name f (probeWithin depth n) := by
  have hdefect (d : Defect) : Finds name f (defect d) := by
    intro s t _ hrun
    cases hrun
  induction h generalizing depth with
  | @alone ident hthis hname =>
    cases depth with
    | zero => exact hdefect _
    | succ depth =>
      have hsteady : ∀ n, StaysLevel name f (Lowering.probeWithin depth n) := .probeWithin hscope depth
      exact first (probeIdentifier hscope hsteady hthis hname hforward)
        (.probeSegment hscope hsteady true (.identifier ident)) .pure
  | part hm _ ih =>
    cases depth with
    | zero => exact hdefect _
    | succ depth => exact probeNode hscope (StaysLevel.probeWithin hscope depth) hm (ih depth)

end Finds

/-! ## Reading what was seen -/

theorem AtTop.looksOut {s : Session} (h : AtTop f.block s) (hscope : f.scope = .global) : f.LooksOut s := by
  refine ⟨?_, fun body hbody => ?_⟩
  · rw [h.isTop.enclosing?]
    rfl
  · rw [hscope] at hbody
    cases hbody

/-- At the root of a chain a name that stands for a symbol is read from it. -/
theorem lowerIdentifier_eq {s : State} (hlooks : f.LooksOut s.session) (part : LowerPart) {ident : Identifier}
    (hthis : ident.isThis = false) {c : Cursor} (hc : c.depth = 0) {r : SymbolRef}
    (htarget : (sightFrom f s.session).rootTarget ident.name = .symbol r) :
    lowerIdentifier part ident c f s = lowerSymbol part ident c r f s := by
  have hsegment : (sightFrom f s.session).segmentTarget ident.name c = .symbol r := by
    unfold Sight.segmentTarget
    rw [if_pos hc, htarget]
  unfold lowerIdentifier
  simp only [hthis, Bool.false_and, Bool.false_eq_true, if_false, run_bind, hlooks.run_sight, hsegment]

/-- Reading a symbol without subscripts takes one instruction, and nothing is reported. -/
theorem passes_lowerSymbol {s : State} (hlooks : f.LooksOut s.session) (part : LowerPart) {ident : Identifier}
    (hdims : ident.dims = []) {r : SymbolRef} {x : Symbol} (hx : s.session.symbol? r = some x)
    (isSingle : Bool) :
    ∃ c t, lowerSymbol part ident (.start isSingle) r f s = .ok c t ∧
      Passes f s t [readInstruction f isSingle x 0] #[] := by
  obtain ⟨u, hsplit, hu⟩ :
      ∃ u, recordSplitDims (literalDims f.dialect []) false f s = .ok () u ∧ u.session = s.session ∧
        u.node = s.node := by
    unfold recordSplitDims
    simp only [run_bind, run_getSession, run_ite]
    split
    · exact ⟨_, rfl, rfl, rfl⟩
    · exact ⟨_, rfl, rfl, rfl⟩
  have hquiet : Passes f s u [] #[] := .quiet (by rw [hu.1]) (by rw [hu.2])
  have hstatic : (if x.isStatic = true then none else (Cursor.start isSingle).anchor) = none := by
    split <;> rfl
  have hnodims : Lowering.lowerDims part [] f s = .ok () s := rfl
  unfold lowerSymbol
  simp only [run_bind, run_getSymbol, hx, hstatic, hdims, hnodims, run_read, hsplit, List.length_nil,
    run_ite]
  cases isSingle with
  | true =>
    obtain ⟨_, t, hpush, hp⟩ := passes_emitPush (hquiet.canEmit hlooks.canEmit) (.ofSymbol x) 0 ident.span
    have hsingle : (Cursor.start true).isSingle = true := rfl
    simp only [hsingle, if_true, hpush, run_pure]
    exact ⟨_, t, rfl, hquiet.trans hp⟩
  | false =>
    obtain ⟨_, t, hpush, hp⟩ :=
      passes_emitPushm (hquiet.canEmit hlooks.canEmit) (.ofSymbol x) x.classScope ident.span
    have hsingle : (Cursor.start false).isSingle = false := rfl
    simp only [hsingle, Bool.false_eq_true, if_false, Nat.lt_irrefl, hpush, run_pure]
    exact ⟨_, t, rfl, hquiet.trans hp⟩

end Lowering

namespace Session

/-- Let an associative unit assign or declare the name at its top level. Once a statement there has looked
ahead and come upon the name, which is no class then, the name stands for a symbol at every moment `t` to
come, be it that the symbol is assigned further down: at the root of a chain it is read from the symbol, and
the read is not reported. Options do not matter. -/
theorem Used.read_ahead {s : Session} (hs : s.Used) {unit : List Node} {name : String}
    (hname : name ∈ forwardNames unit) {f : Frame} (hf : f.site = s.unitSite .associative)
    (hforward : f.forward = forwardNames unit) {u w : State}
    (hu : Evolves (fun _ => True) (s.unitSite .associative) (s.unitStart .associative).2 u.session)
    (hclass : u.session.classes.indexOf? name = none) {value : Node} (hahead : value.Ahead name)
    (hprobe : probe value f u = .ok () w) {t : State}
    (ht : Evolves (fun _ => True) f.site w.session t.session) {g : Frame} (hg : g.site = f.site)
    (hanchor : g.anchor = none ∨ t.session.classes.indexOf? name ≠ g.anchor) :
    ∃ r x, (sightFrom g t.session).resolve name = .found r ∧ t.session.symbol? r = some x ∧
      ∀ (part : LowerPart) (ident : Identifier), ident.name = name → ident.isThis = false →
        (∀ c, c.depth = 0 → lowerIdentifier part ident c g t = lowerSymbol part ident c r g t) ∧
        (ident.dims = [] → ∀ isSingle, ∃ c v,
          lowerIdentifier part ident (.start isSingle) g t = .ok c v ∧
            Passes g t v [readInstruction g isSingle x 0] #[]) := by
  have hblock : f.block = (s.unitStart .associative).1 := congrArg Frame.block hf
  have hscope : f.scope = .global := congrArg Frame.scope hf
  have hgblock : g.site.block = f.site.block := congrArg Frame.block hg
  have hgscope : g.site.scope = f.site.scope := congrArg Frame.scope hg
  change g.block = f.block at hgblock
  change g.scope = f.scope at hgscope
  rw [hscope] at hgscope
  have htop : AtTop f.block u.session := by
    rw [hblock]
    exact (hs.atTop_unitStart .associative).evolves hu
  have hlevel : AtLevel name f u.session := ⟨htop, hclass⟩
  have hsees : w.session.Sees f.block name :=
    Finds.probeWithin hscope (hforward ▸ hname) hahead _ u w hlevel hprobe
  have htop' : AtTop f.block w.session := (StaysLevel.probeWithin hscope _ value u w hlevel hprobe).1.top
  have hend : AtTop g.block t.session := hgblock ▸ htop'.evolves ht
  have hlooks := hend.looksOut hgscope
  obtain ⟨r, hr⟩ := (hgblock ▸ hsees.evolves ht : t.session.Sees g.block name).resolve hend hgscope
  obtain ⟨x, hx⟩ := Option.isSome_iff_exists.mp (Sight.resolve_exists hr)
  have htarget : (sightFrom g t.session).rootTarget name = .symbol r := by
    have hclear : ((sightFrom g t.session).frame.anchor.isSome &&
        (sightFrom g t.session).session.classes.indexOf? name == (sightFrom g t.session).frame.anchor) =
          false := by
      change (g.anchor.isSome && t.session.classes.indexOf? name == g.anchor) = false
      obtain hnone | hne := hanchor
      · rw [hnone]
        rfl
      · rw [Bool.and_eq_false_iff]
        exact .inr (by simpa using hne)
    unfold Sight.rootTarget
    simp only [hclear, Bool.false_eq_true, if_false, hr]
  refine ⟨r, x, hr, hx, fun part ident hident hthis => ?_⟩
  rw [← hident] at htarget
  refine ⟨fun c hc => lowerIdentifier_eq hlooks part hthis hc htarget, fun hdims isSingle => ?_⟩
  rw [lowerIdentifier_eq hlooks part hthis rfl htarget]
  exact passes_lowerSymbol hlooks part hdims hx isSingle

/-- In `y = [a]` and a later assignment of `a`, the item of the list is read from the variable that looking
ahead declared. -/
theorem item_read_ahead :
    let x (name : String) : Node := .identifier (.plain name .nil)
    let value : Node := .list [x "a"] [] [] .nil
    let unit : List Node := [.assign (x "y") value .nil, .assign (x "a") (.literal .int "1" .nil) .nil]
    let start := (Session.new {}).unitStart .associative
    let f := unitFrame start.1 .global .associative unit
    let u : State := { session := start.2 }
    "a" ∈ forwardNames unit ∧ (sightFrom f u.session).resolve "a" = .unbound ∧ value.Ahead "a" ∧
      ∃ w, probe value f u = .ok () w ∧
        ∃ r x, (sightFrom f w.session).resolve "a" = .found r ∧ w.session.symbol? r = some x ∧
          ∃ c v, lowerIdentifier expression (.plain "a" .nil) (.start true) f w = .ok c v ∧
            Passes f w v [readInstruction f true x 0] #[] := by
  intro x value unit start f u
  have hname : "a" ∈ forwardNames unit := by decide
  have hunbound : (sightFrom f u.session).resolve "a" = .unbound := by decide +kernel
  have hahead : value.Ahead "a" := .part (m := x "a") (by simp [value, Node.partsAhead]) (.alone (by decide) rfl)
  have hclass : u.session.classes.indexOf? "a" = none := by decide +kernel
  have hprobe := eq_ok_ending (m := probe value) (f := f) (s := u) (by decide +kernel)
  refine ⟨hname, hunbound, hahead, _, hprobe, ?_⟩
  obtain ⟨r, y, hr, hy, hread⟩ := Used.read_ahead (.new {}) hname (f := f) rfl rfl (.refl _ _ _) hclass hahead
    hprobe (.refl (fun _ => True) _ _) (g := f) rfl (.inl rfl)
  exact ⟨r, y, hr, hy, (hread expression (.plain "a" .nil) rfl (by decide)).2 rfl true⟩

/-- In `y = x.m` and a later assignment of `x`, looking ahead passes the root of the chain over, and the read of
`x` is reported. Where chains are split, the root is a value of its own, and it is not. -/
theorem chain_root_unbound :
    let x (name : String) : Node := .identifier (.plain name .nil)
    let chain : Node := .member (x "x") (x "m") .dot false .nil
    let unit : List Node := [.assign (x "y") chain .nil, .assign (x "x") (.literal .int "1" .nil) .nil]
    "x" ∈ forwardNames unit ∧
      ((Session.new {}).compile unit .associative).2.diagnostics.map (fun d => (d.issue, d.message)) =
        #[(.unboundIdentifier, "'x' is not defined.")] ∧
      ((Session.new { fullSsa := true }).compile unit .associative).2.diagnostics = #[] := by
  intro x chain unit
  refine ⟨by decide, ?_, ?_⟩ <;> decide +kernel

end Session

end Diglot
