import Diglot.Proofs.Course.Unit
import Diglot.Proofs.Flow.Stream
import Diglot.Proofs.Globals.Table

/-! # The names of a unit

* `Node.allNames`: the names that a unit yields at its top level. The bodies of conditionals and loops have
  no block of their own, so that they belong to it.
* `Session.hasGlobal_compile`: once the first unit has been compiled, every name that it assigns or
  declares at its top level is that of a global variable in the first block.
-/

set_option autoImplicit false

namespace Diglot

open Lowering

/-! ## Names at the top level -/

mutual

/-- The names that a statement yields in the block around it. -/
def Node.namesOf (pick : Node → Option String) : Node → List String
  | .branch _ body otherwise _ => Node.allNames pick body ++ Node.allNames pick otherwise
  | .loop _ body _ => Node.allNames pick body
  | node => (pick node).toList

/-- The names that statements yield in the block around them. -/
def Node.allNames (pick : Node → Option String) : List Node → List String
  | [] => []
  | n :: rest => n.namesOf pick ++ Node.allNames pick rest

end

/-- The name that a statement declares. -/
def Node.declaredName? : Node → Option String
  | .varDecl declaration => some declaration.name
  | _ => none

theorem Node.eq_of_assigned {name : String} {ident : Identifier} {value : Node} {span : Span}
    (h : name ∈ (Node.assign (.identifier ident) value span).namesOf Node.assignedName?) :
    name = ident.name := by
  have hsome : (if ident.isThis then none else some ident.name) = some name :=
    Option.mem_toList.mp h
  split at hsome
  · cases hsome
  · exact (Option.some.inj hsome).symm

namespace Lowering

/-- Lowering at the top level can look names up. -/
structure AtTop (block : Nat) (s : Session) : Prop where
  isWatching : s.isWatching = false
  isTop : s.IsTop block
  indexed : s.Indexed

theorem AtTop.evolves {block : Nat} {K : OpCode → Prop} {f : Frame} {s t : Session}
    (h : AtTop block s) (he : Evolves K f s t) : AtTop block t :=
  ⟨he.isWatching_eq.trans h.isWatching, h.isTop.extends he.extends, he.extends.indexed h.indexed⟩

/-- A run at the top level of the first unit that finishes leaves a global variable of the name. -/
def Gives {α : Type} (name : String) (f : Frame) (m : Lower α) : Prop :=
  ∀ s a t, AtTop 0 s.session → m f s = .ok a t → t.session.HasGlobal name

namespace Gives

variable {α β : Type} {name : String} {f : Frame}

theorem first {m : Lower α} {k : α → Lower β} (hm : Gives name f m)
    (hk : ∀ a, Evolving (fun _ => True) (k a)) :
    Gives name f (m >>= k) := by
  intro s b u hs hrun
  obtain ⟨a, t, hfirst, hsecond⟩ := bind_eq_ok.mp hrun
  have he := hk a f t
  rw [hsecond] at he
  exact (hm s a t hs hfirst).extends (Evolves.extends he)

theorem andThen {m : Lower α} {k : α → Lower β} (hm : Evolving (fun _ => True) m)
    (hk : ∀ a, Gives name f (k a)) :
    Gives name f (m >>= k) := by
  intro s b u hs hrun
  obtain ⟨a, t, hfirst, hsecond⟩ := bind_eq_ok.mp hrun
  have he := hm f s
  rw [hfirst] at he
  exact hk a t b u (hs.evolves he) hsecond

theorem ite {c : Prop} [Decidable c] {m n : Lower α} (hm : Gives name f m) (hn : Gives name f n) :
    Gives name f (if c then m else n) := by
  split
  · exact hm
  · exact hn

theorem onlyIf {c : Prop} [Decidable c] {m : Lower β} {k : Lower α} (hm : Evolving (fun _ => True) m)
    (hk : Gives name f k) : Gives name f (if c then m >>= fun _ => k else k) :=
  ite (andThen hm fun _ => hk) hk

theorem withReader {g : Frame → Frame} {m : Lower α} (h : Gives name (g f) m) :
    Gives name f (MonadWithReader.withReader g m : Lower α) := h

theorem halt (issue : Issue) (message : String) (span : Span) :
    Gives name f (Lowering.halt issue message span : Lower α) := by
  intro s a t _ hrun
  cases hrun

theorem defect (d : Defect) : Gives name f (Lowering.defect d : Lower α) := by
  intro s a t _ hrun
  cases hrun

/-! ## Declaring and storing -/

section
variable (hblock : f.block = 0) (hscope : f.scope = .global)
include hblock hscope

theorem allocate (d : Declaration) : Gives d.name f (allocate d) := by
  intro s r t hs hrun
  obtain ⟨_, _, hok⟩ | ⟨e, u, herror⟩ := allocate_cases d f s
  · rw [hok] at hrun
    cases hrun
    obtain ⟨cls, counters, _, _, hcls, _⟩ | ⟨counters, _, _, heq⟩ := s.session.declare_cases f d
    · rw [hscope] at hcls
      cases hcls
    · obtain ⟨hd, hzero, _⟩ := hs.isTop.first
      show (s.session.declare f d).HasGlobal d.name
      rw [heq, hblock]
      let x := s.session.declared f d
      refine ⟨hd.symbols.size, { x with position := hd.symbols.size }, ?_, rfl, ?_, ?_⟩
      · have hzero' : ({ s.session with counters } : Session).header? 0 = some hd := hzero
        rw [Session.symbol?_block, Session.header?_enterLocal, if_pos rfl, hzero']
        exact SymbolTable.get?_append_size hd.symbols x
      · have hclass : x.classScope = f.scope.classScope := rfl
        simp [Symbol.isMember, hclass, hscope, Scope.global]
      · show f.scope.function = none
        rw [hscope]
        rfl
  · rw [herror] at hrun
    cases hrun

theorem targetSymbol (ident : Identifier) (type : Ty) :
    Gives ident.name f (targetSymbol ident type) := by
  intro s r t hs hrun
  obtain ⟨v, u, hv, hrest⟩ := bind_eq_ok.mp hrun
  obtain ⟨hu, hsight, hblocks, _⟩ := sight_eq_ok.mp hv
  rw [hblock, hs.isTop.enclosing?] at hblocks
  rw [hu] at hrest
  have hname (d : Declaration) (hd : d.name = ident.name) : Gives ident.name f (Lowering.allocate d) :=
    hd ▸ allocate hblock hscope d
  cases hr : v.resolve ident.name with
  | found r' =>
    rw [hr] at hrest
    cases hrest
    have hframe : v.frame = f := by rw [hsight]
    have hsession : v.session = s.session := by rw [hsight]
    obtain ⟨i, x, hri, hx, hglobal⟩ := Sight.resolve_top_found (by rw [hframe, hscope])
      (by rw [hframe, hblock, Option.some.inj hblocks]) (by rw [hsession]; exact hs.indexed) hr
    have hzero : r = ⟨.block 0, i⟩ := by
      rw [hframe, hblock] at hri
      exact hri.elim id id
    rw [hsession, hzero] at hx
    exact ⟨i, x, hx, hglobal⟩
  | inaccessible r' =>
    rw [hr] at hrest
    exact andThen (.report _ _ _) (fun _ => hname _ rfl) s r t hs hrest
  | unbound =>
    rw [hr] at hrest
    exact hname _ rfl s r t hs hrest

theorem storeIdentifier (ident : Identifier) (type : Ty) :
    Gives ident.name f (storeIdentifier ident type) := by
  apply first (targetSymbol hblock hscope ident type)
  intro r
  have hdims : Evolving (fun _ => True) (Lowering.lowerDims expression ident.dims) :=
    Evolving.free.lowerDims Evolving.free.expression _
  refine .bind (Evolving.free.getSymbol r) fun symbol => .bind hdims fun _ => ?_
  refine .ite (.bind .read fun f => .bind (Evolving.free.recordIndexing _) fun _ => ?_) ?_
  · exact .bind (Evolving.free.recordSplitDims _ _) fun _ => .bind (Evolving.free.emitStore _ _ _) fun _ => .pure _
  · exact .bind (Evolving.free.emitStore _ _ _) fun _ => .pure _

theorem assignTo (ident : Identifier) (type : Ty) :
    Gives ident.name f (assignTo (.identifier ident) type) := by
  apply ite (halt _ _ _)
  exact storeIdentifier hblock hscope ident type

/-! ## Assignments -/

theorem lowerValueAndStore (ident : Identifier) (value : Node) (isLast : Bool) :
    Gives ident.name f (lowerValueAndStore (.identifier ident) value isLast) := by
  refine andThen Evolving.free.pc fun _ => andThen (Evolving.free.expression value) fun type => ?_
  refine andThen Evolving.free.pc fun _ => ?_
  refine onlyIf Evolving.free.recordSplitChain (andThen (Evolving.free.refineType _) fun type => ?_)
  exact first (assignTo hblock hscope ident type) fun _ => .pure _

theorem graphStatement (ident : Identifier) (value : Node) (span : Span) (isTemporary isLast : Bool) :
    Gives ident.name f (graphStatement (.identifier ident) value span isTemporary isLast) := by
  refine andThen (Evolving.free.freshNode _) fun fresh => andThen (.probe _) fun _ => first ?_ fun p => ?_
  · refine andThen (.modifyState fun _ => rfl) fun _ => ?_
    apply first
    · apply withReader
      exact lowerValueAndStore (f := { f with isTracked := true }) hblock hscope ident value isLast
    · exact fun _ => .bind .get fun _ => .pure _
  · exact .bind (.emitSilent trivial _) fun _ => .bind (.note _ _ _) fun _ => .pure _

theorem lowerFactors (ident : Identifier) (span : Span) (factor : Node) (anchor : Option Nat)
    (rest : List Node) :
    Gives ident.name f (lowerFactors (.identifier ident) span factor anchor rest) := by
  have hfactor (anchor : Option Nat) (target value : Node) (isLast : Bool) :
      Evolving (fun _ => True) (MonadWithReader.withReader (fun f : Frame => { f with anchor })
        (Lowering.graphStatement target value span true isLast) : Lower GraphNode) := by
    apply Evolving.withReader (g := fun f : Frame => { f with anchor })
    · exact fun _ => rfl
    · exact Evolving.free.graphStatement _ _ _ _ _
  induction rest generalizing factor anchor with
  | nil =>
    refine andThen (.nextTemporary _) fun _ => andThen (hfactor _ _ _ _) fun _ => ?_
    apply andThen (Evolving.free.hold _)
    exact fun _ => first (graphStatement hblock hscope ident _ _ _ _) fun _ => Evolving.free.hold _
  | cons segment rest ih =>
    refine andThen (.nextTemporary _) fun _ => andThen (hfactor _ _ _ _) fun _ => ?_
    exact andThen (Evolving.free.hold _) fun _ => andThen (Evolving.free.pushPointers _) fun _ => ih _ _

theorem lowerUpdate (ident : Identifier) (value : Node) (span : Span) :
    Gives ident.name f (lowerUpdate (.identifier ident) value span) := by
  refine andThen (.modifyState fun _ => rfl) fun _ => andThen .getSession fun s => ite ?_ ?_
  · refine andThen (Evolving.free.chainSegments _) fun segments => andThen (.modifyState fun _ => rfl) fun _ => ?_
    apply first
    · apply andThen Evolving.free.sight
      intro v
      split
      · exact andThen (Evolving.free.pushPointers _) fun _ => lowerFactors hblock hscope _ _ _ _ _
      · exact andThen (Evolving.free.pushPointers _) fun _ => lowerFactors hblock hscope _ _ _ _ _
      · exact defect _
    · exact fun _ => .bind .get fun _ => .bind (.modifyState fun _ => rfl) fun _ =>
        .forM fun n _ => .commit n
  · exact first (graphStatement hblock hscope ident _ _ _ _) fun n => .commit n

theorem lowerAssignment (ident : Identifier) (value : Node) :
    Gives ident.name f (lowerAssignment (.identifier ident) value) := by
  refine andThen (.modifyState fun _ => rfl) fun _ => andThen (Evolving.free.expression value) fun type => ?_
  exact first (assignTo hblock hscope ident type) fun _ => .pure _

theorem lowerVariable {statement : LowerStatement} (h : ∀ n, Evolving (fun _ => True) (statement n))
    (v : Variable) : Gives v.name f (lowerVariable statement v) := by
  refine andThen (Evolving.free.resolveType _ _) fun type => first ?_ fun r => ?_
  · exact allocate hblock hscope (.ofVariable v type)
  · refine .bind (Evolving.free.getSymbol r) fun symbol => .bind (Evolving.free.emitHeapBox symbol) fun _ => ?_
    cases initializer? v with
    | none => exact .pure _
    | some assignment => exact .bind (h assignment) fun _ => .pure _

end

/-! ## Statements -/

/-- The names that a statement assigns or declares at the top level become those of global variables. -/
def Yields (statement : LowerStatement) (n : Node) : Prop :=
  ∀ f : Frame, f.block = 0 → f.scope = .global →
    ∀ name ∈ n.namesOf Node.assignedName?, Gives name f (statement n)

section
variable {statement : LowerStatement} (hev : ∀ n, Evolving (fun _ => True) (statement n))
  (h : ∀ n, Yields statement n)
include hev h

theorem lowerAll (hblock : f.block = 0) (hscope : f.scope = .global) {l : List Node}
    (hname : name ∈ Node.allNames Node.assignedName? l) : Gives name f (lowerAll statement l) := by
  induction l with
  | nil => cases hname
  | cons n rest ih =>
    obtain hn | hrest := List.mem_append.mp hname
    · apply first (h n f hblock hscope name hn)
      exact fun _ => .bind (.lowerAll hev rest) fun _ => .pure _
    · exact andThen (hev n) fun _ => first (ih hrest) fun _ => .pure _

theorem imperativeStatement (n : Node) : Yields (imperativeStatement statement) n := by
  intro f hblock hscope name hname
  have hall {l : List Node} (hl : name ∈ Node.allNames Node.assignedName? l) :
      Gives name f (Lowering.lowerAll statement l) := lowerAll hev h hblock hscope hl
  have hplain {m : Lower Unit} (hm : Gives name f m) : Gives name f (plain m) :=
    first hm fun _ => .pure _
  have hpatch (pending target : Nat) : Evolving (fun _ => True) (patch pending target) :=
    .patch (fun _ _ => trivial) pending target
  cases n with
  | assign target value span =>
    cases target with
    | identifier ident =>
      obtain rfl := Node.eq_of_assigned hname
      exact hplain (lowerAssignment hblock hscope ident value)
    | _ => cases hname
  | varDecl v =>
    obtain rfl : name = v.name := by simpa [Node.namesOf, Node.assignedName?] using hname
    exact hplain (lowerVariable hblock hscope hev v)
  | branch condition body otherwise span =>
    apply andThen (Evolving.free.lowerCondition condition span)
    intro _
    obtain hbody | hotherwise := List.mem_append.mp hname
    · apply ite
      · refine andThen (.emitStepping trivial _ _) fun _ => first (hall hbody) fun _ => ?_
        exact .bind Evolving.free.pc fun _ => .bind (hpatch _ _) fun _ => .pure _
      · refine andThen Evolving.free.pc fun _ => andThen (Evolving.free.emitCjmp _ _ _) fun _ => ?_
        refine first (hall hbody) fun _ => ?_
        refine .bind (.emitStepping trivial _ _) fun _ => .bind Evolving.free.pc fun _ => .bind (hpatch _ _) fun _ => ?_
        exact .bind (.lowerAll hev _) fun _ => .bind Evolving.free.pc fun _ => .bind (hpatch _ _) fun _ => .pure _
    · split
      · next hempty =>
        rw [List.isEmpty_iff.mp hempty] at hotherwise
        cases hotherwise
      · refine andThen Evolving.free.pc fun _ => andThen (Evolving.free.emitCjmp _ _ _) fun _ => ?_
        refine andThen (.lowerAll hev _) fun _ => ?_
        refine andThen (.emitStepping trivial _ _) fun _ => andThen Evolving.free.pc fun _ => ?_
        refine andThen (hpatch _ _) fun _ => first (hall hotherwise) fun _ => ?_
        exact .bind Evolving.free.pc fun _ => .bind (hpatch _ _) fun _ => .pure _
  | loop condition body span =>
    apply hplain
    refine andThen Evolving.free.pc fun _ => andThen (Evolving.free.lowerCondition condition span) fun _ => ?_
    refine andThen Evolving.free.pc fun _ => andThen (Evolving.free.emitCjmp _ _ _) fun _ => first ?_ fun exits => ?_
    · apply withReader
      exact lowerAll (f := { f with inLoop := true }) hev h hblock hscope hname
    · have hpatchAll (l : List Nat) (target : Nat) : Evolving (fun _ => True) (patchAll l target) :=
        Evolving.free.patchAll l target
      refine .bind (hpatchAll _ _) fun _ => .bind (.emitStepping trivial _ _) fun _ => ?_
      exact .bind Evolving.free.pc fun _ => .bind (hpatch _ _) fun _ => hpatchAll _ _
  | _ => cases hname

omit h in
theorem associativeStatement (n : Node) :
    Yields (fun n => plain (associativeStatement statement n)) n := by
  intro f hblock hscope name hname
  have hplain {m : Lower Unit} (hm : Gives name f m) : Gives name f (plain m) :=
    first hm fun _ => .pure _
  apply hplain
  cases n with
  | assign target value span =>
    cases target with
    | identifier ident =>
      obtain rfl := Node.eq_of_assigned hname
      exact lowerUpdate hblock hscope ident value span
    | _ => cases hname
  | varDecl v =>
    obtain rfl : name = v.name := by simpa [Node.namesOf, Node.assignedName?] using hname
    exact lowerVariable hblock hscope hev v
  | branch => exact halt _ _ _
  | loop => exact halt _ _ _
  | _ => cases hname

end

theorem statementWithin (depth : Nat) (n : Node) : Yields (statementWithin depth) n := by
  induction depth generalizing n with
  | zero => exact fun f _ _ name _ => defect _
  | succ depth ih =>
    intro f hblock hscope name hname
    apply andThen .read
    intro g
    split
    · exact associativeStatement (Evolving.statementWithin depth) n f hblock hscope name hname
    · exact imperativeStatement (Evolving.statementWithin depth) ih n f hblock hscope name hname

end Gives

end Lowering

namespace Session

/-- What the first unit assigns or declares at its top level are global variables once it is compiled. -/
theorem hasGlobal_compile {s : Session} {first : List Node} {dialect : Dialect}
    (hstart : AtTop 0 (s.unitStart dialect).2) (hblock : (s.unitStart dialect).1 = 0)
    (hok : (s.compile first dialect).1.toBool = true) {name : String}
    (hname : name ∈ Node.allNames Node.assignedName? first) :
    (s.compile first dialect).2.HasGlobal name := by
  rw [compile_eq] at hok ⊢
  cases hrun : lowerCode first (unitFrame (s.unitStart dialect).1 .global dialect first)
      { session := (s.unitStart dialect).2 } with
  | error e t =>
    rw [hrun] at hok
    cases hok
  | ok _ t =>
    have hcode : Gives name (unitFrame (s.unitStart dialect).1 .global dialect first)
        (lowerCode first) := by
      apply Gives.first
      · apply Gives.lowerAll Evolving.statement (fun n => Gives.statementWithin _ n)
        · exact hblock
        · rfl
        · exact hname
      · exact fun _ => .closeUnit first
    exact hcode _ _ _ hstart hrun

end Session

end Diglot
