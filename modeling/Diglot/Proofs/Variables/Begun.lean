import Diglot.Proofs.Spare.Update
import Diglot.Proofs.Variables.Bodies

/-! # How the procedures of a class begin

`ClassDecl.definitions` lists the procedures of a class in the order of their lowering, those that are made up included,
and each constructor begins with the first values of the members (`ClassDecl.body_of_isConstructor`). `Begins` is the
point at which the code of one of them begins: its block has its parameters alone, and the class has all its members.
-/

set_option autoImplicit false

namespace Diglot

open Lowering

/-! ## The procedures of a class -/

namespace ClassDecl

/-- The assignments that give the instance members their first values. -/
def firstValues (c : ClassDecl) : List Node := (c.members.filter fun v => !v.isStatic).filterMap initializer?

/-- The procedures of the class in the order of their lowering, each with the mark of those that are made up. -/
def definitions (c : ClassDecl) : List (Function × Bool) :=
  (c.members.filter fun v => !v.isStatic).flatMap (fun v => [(getterOf v, true), (setterOf v, true)]) ++
    (staticInitializer? ((c.members.filter Variable.isStatic).filterMap initializer?)).toList.map (·, true) ++
    c.methods.map (fun fn => (withInitializers c.firstValues fn, false)) ++
    if c.methods.any Function.isConstructor then [] else [(defaultConstructor c.name c.firstValues, true)]

/-- Every constructor, made up or not, begins with the first values of the members. -/
theorem body_of_isConstructor {c : ClassDecl} {d : Function × Bool} (hd : d ∈ c.definitions)
    (hctor : d.1.isConstructor = true) : ∃ rest, d.1.body = c.firstValues ++ rest := by
  simp only [definitions, List.mem_append, List.mem_flatMap, List.mem_map] at hd
  obtain ((⟨v, -, hd⟩ | ⟨fn, hfn, rfl⟩) | ⟨fn, -, rfl⟩) | hd := hd
  · simp only [List.mem_cons, List.not_mem_nil, or_false] at hd
    obtain rfl | rfl := hd <;> cases hctor
  · unfold staticInitializer? at hfn
    split at hfn
    · cases hfn
    · simp only [Option.toList_some, List.mem_singleton] at hfn
      rw [hfn] at hctor
      cases hctor
  · unfold withInitializers at hctor ⊢
    split
    · exact ⟨fn.body, rfl⟩
    · next hfn =>
      rw [if_neg hfn] at hctor
      exact absurd hctor hfn
  · split at hd
    · cases hd
    · rw [List.mem_singleton.mp hd]
      exact ⟨[], (List.append_nil _).symm⟩

end ClassDecl

namespace Lowering

variable {f g : Frame} {s t u : State} {c : ClassDecl}

/-- Lowers the procedures of a class. -/
def lowerDefinitions (definitions : List (Function × Bool)) : Lower Unit :=
  definitions.forM fun d => lowerFunction statement d.1 d.2

theorem lowerDefinitions_append (l l' : List (Function × Bool)) :
    lowerDefinitions (l ++ l') = lowerDefinitions l >>= fun _ => lowerDefinitions l' := List.forM_append

theorem lowerClassBody_eq (c : ClassDecl) :
    lowerClassBody statement c = lowerMembers c.members >>= fun _ => lowerDefinitions c.definitions := by
  let accessors (v : Variable) : Lower Unit := do
    lowerFunction statement (getterOf v) true
    lowerFunction statement (setterOf v) true
  have haccessors (l : List Variable) :
      lowerDefinitions (l.flatMap fun v => [(getterOf v, true), (setterOf v, true)]) = l.forM accessors := by
    induction l with
    | nil => rfl
    | cons v rest ih =>
      rw [List.flatMap_cons, lowerDefinitions_append, ih]
      simp [lowerDefinitions, accessors, bind_assoc]
  have hmap {α : Type} (l : List α) (k : α → Function × Bool) :
      lowerDefinitions (l.map k) = l.forM fun a => lowerFunction statement (k a).1 (k a).2 := List.forM_map
  have hlast : lowerDefinitions (if c.methods.any Function.isConstructor then []
      else [(defaultConstructor c.name c.firstValues, true)]) =
      if !(c.methods.any Function.isConstructor) then
        lowerFunction statement (defaultConstructor c.name c.firstValues) true
      else Pure.pure () := by
    cases c.methods.any Function.isConstructor <;> simp [lowerDefinitions]
  unfold lowerClassBody ClassDecl.definitions
  rw [lowerDefinitions_append, lowerDefinitions_append, lowerDefinitions_append, haccessors, hmap, hmap, hlast]
  simp only [bind_assoc]
  rfl

/-- Lowering the body of a class from a state comes to the procedure at a position: its code is lowered in frame `g`,
and its parameters have been declared in state `u`. -/
inductive Begins (c : ClassDecl) (f : Frame) (s : State) (i : Nat) : Function → Frame → State → Prop where
  | intro {fn : Function} {isGenerated : Bool} {r r' u : State} {p : Procedure} :
      c.definitions[i]? = some (fn, isGenerated) →
      (lowerMembers c.members >>= fun _ => lowerDefinitions (c.definitions.take i)) f s = .ok () r →
      functionHeader fn isGenerated f r = .ok p r' →
      declareParams p.args (bodyUnit f r'.session fn.body)
        { session := r'.session.openProcedure f p (bodyMessage fn.name r'.session.blocks.size) } = .ok () u →
      Begins c f s i fn (bodyUnit f r'.session fn.body) u

theorem lowerFunction_begins {fn : Function} {isGenerated : Bool}
    (hrun : lowerFunction statement fn isGenerated f s = .ok () t) :
    ∃ p r u, functionHeader fn isGenerated f s = .ok p r ∧
      declareParams p.args (bodyUnit f r.session fn.body)
        { session := r.session.openProcedure f p (bodyMessage fn.name r.session.blocks.size) } = .ok () u := by
  rw [lowerFunction_header] at hrun
  obtain ⟨p, r, hheader, hrun⟩ := bind_eq_ok.mp hrun
  obtain ⟨-, -, hbody⟩ | ⟨-, d, u, hbody, -⟩ := lowerBody_cases fn p f r
  case inr =>
    rw [hrun] at hbody
    cases hbody
  rw [hrun] at hbody
  split at hbody
  case h_2 => cases hbody
  next hcode =>
    obtain ⟨_, u, hparams, -⟩ := bind_eq_ok.mp hcode
    exact ⟨p, r, u, hheader, hparams⟩

/-- If the body of a class is lowered to the end, then lowering comes to each of its procedures. -/
theorem exists_begins (hrun : lowerClassBody statement c f s = .ok () t) {i : Nat} {d : Function × Bool}
    (hd : c.definitions[i]? = some d) : ∃ g u, Begins c f s i d.1 g u := by
  rw [lowerClassBody_eq] at hrun
  obtain ⟨_, s₀, hmembers, hrun⟩ := bind_eq_ok.mp hrun
  obtain ⟨hi, rfl⟩ := List.getElem?_eq_some_iff.mp hd
  rw [← List.take_append_drop i c.definitions, lowerDefinitions_append] at hrun
  obtain ⟨_, r, hbefore, hrun⟩ := bind_eq_ok.mp hrun
  rw [List.drop_eq_getElem_cons hi] at hrun
  obtain ⟨_, v, hfunction, -⟩ := bind_eq_ok.mp hrun
  obtain ⟨p, r', u, hheader, hparams⟩ := lowerFunction_begins hfunction
  exact ⟨_, u, .intro hd (bind_eq_ok.mpr ⟨_, s₀, hmembers, hbefore⟩) hheader hparams⟩

theorem surrounds_lowerDefinitions {l : List (Function × Bool)} (hrun : lowerDefinitions l f s = .ok () t) :
    s.session.Surrounds t.session := by
  induction l generalizing s with
  | nil =>
    cases hrun
    exact .refl _
  | cons d rest ih =>
    obtain ⟨_, r, hfunction, hrun⟩ := bind_eq_ok.mp hrun
    exact (surrounds_lowerFunction hfunction).1.trans (ih hrun)

/-- Different procedures have different blocks. -/
theorem Begins.block_ne {i j : Nat} (hij : i < j) {fn fn' : Function} {g' : Frame} {u' : State}
    (h : Begins c f s i fn g u) (h' : Begins c f s j fn' g' u') : g.block < g'.block := by
  obtain ⟨hd, hbefore, hheader, -⟩ := h
  obtain ⟨hd', hbefore', hheader', -⟩ := h'
  next isGenerated r r' p isGenerated' v v' p' =>
  obtain ⟨_, s₀, hmembers, hbefore⟩ := bind_eq_ok.mp hbefore
  obtain ⟨_, s₁, hmembers', hbefore'⟩ := bind_eq_ok.mp hbefore'
  cases hmembers.symm.trans hmembers'
  obtain ⟨hi, hget⟩ := List.getElem?_eq_some_iff.mp hd
  have hi' : i < (c.definitions.take j).length := by
    rw [List.length_take]
    omega
  have htake : c.definitions.take j =
      c.definitions.take i ++ (fn, isGenerated) :: (c.definitions.take j).drop (i + 1) := by
    conv_lhs => rw [← List.take_append_drop i (c.definitions.take j)]
    rw [List.take_take, Nat.min_eq_left (Nat.le_of_lt hij), List.drop_eq_getElem_cons hi', List.getElem_take, hget]
  rw [htake, lowerDefinitions_append] at hbefore'
  obtain ⟨_, r₁, hsame, hbefore'⟩ := bind_eq_ok.mp hbefore'
  cases hbefore.symm.trans hsame
  obtain ⟨_, r₂, hfunction, hrest⟩ := bind_eq_ok.mp hbefore'
  have hlt := (surrounds_lowerFunction hfunction).2
  have hle := (surrounds_lowerDefinitions hrest).size
  have hr := (functionHeader_sameNames hheader).size
  have hv := (functionHeader_sameNames hheader').size
  change r'.session.blocks.size < v'.session.blocks.size
  omega

/-! ## What a procedure declares itself -/

section
variable {name : String}

theorem lacks_enterLocal {s : Session} {block id : Nat} {x : Symbol} (h : s.Lacks block name) (hx : x.name ≠ name) :
    (s.enterLocal id x).Lacks block name := by
  intro i y hy
  rw [Session.symbol?_block, Session.header?_enterLocal] at hy
  split at hy
  · obtain ⟨hd, hd', hy⟩ := Option.bind_eq_some_iff.mp hy
    obtain ⟨hd, hs, rfl⟩ := Option.map_eq_some_iff.mp hd'
    obtain hold | ⟨-, rfl⟩ := SymbolTable.get?_append_cases hy
    · refine h i y ?_
      rw [Session.symbol?_block, hs]
      exact hold
    · exact hx
  · refine h i y ?_
    rwa [Session.symbol?_block]

theorem Entered.lacks_iff {d : Declaration} {r : SymbolRef} {x : Symbol} (h : Entered f d r x s t) :
    t.session.Lacks f.block name ↔ s.session.Lacks f.block name ∧ d.name ≠ name := by
  obtain ⟨counters, hnames⟩ := h.names
  constructor
  · intro hlacks
    refine ⟨hlacks.of_extends h.extends_session, ?_⟩
    obtain ⟨hd, -, hr, hx⟩ := h.place
    have hsymbol := h.symbol
    rw [hr] at hsymbol
    have hne := hlacks _ _ hsymbol
    rwa [hx] at hne
  · rintro ⟨hlacks, hne⟩ i y hy
    rw [hnames.symbol?_eq] at hy
    have hcounted : ({ s.session with counters } : Session).Lacks f.block name := hlacks
    exact lacks_enterLocal hcounted hne i y hy

theorem lacks_declareParams (hown : f.IsOwn) (hlooks : f.LooksOut s.session) {params : List Argument}
    (hrun : declareParams params f s = .ok () t) :
    t.session.Lacks f.block name ↔ s.session.Lacks f.block name ∧ name ∉ params.map Argument.name := by
  induction params generalizing s with
  | nil =>
    cases hrun
    simp
  | cons p rest ih =>
    obtain ⟨_, v, hfirst, hrest⟩ := bind_eq_ok.mp hrun
    obtain ⟨r, w, hallocate, hdone⟩ := bind_eq_ok.mp hfirst
    cases hdone
    obtain ⟨r', x, v', hallocate', hentered⟩ := run_allocate_entered (s := s) hown hlooks
      { name := p.name, type := p.type, isParameter := true }
    cases hallocate.symm.trans hallocate'
    rw [ih (hentered.looksOut hlooks) hrest, hentered.lacks_iff]
    simp only [List.map_cons, List.mem_cons, not_or, and_assoc, ne_comm, ne_eq]

theorem resolveParams_names {params : List Parameter} {args : List Argument}
    (hrun : resolveParams params f s = .ok args t) : args.map Argument.name = params.map Parameter.name := by
  induction params generalizing s args with
  | nil =>
    cases hrun
    rfl
  | cons p rest ih =>
    obtain ⟨type, u, -, hrun⟩ := bind_eq_ok.mp hrun
    obtain ⟨args', v, hrest, hdone⟩ := bind_eq_ok.mp hrun
    cases hdone
    rw [List.map_cons, List.map_cons, ih hrest]

end

/-! ## Procedures that are begun -/

/-- The body of a class can be lowered in the frame, from a state in which the class has no members yet. -/
structure EntersClass (cls : Nat) (f : Frame) (s : State) : Prop where
  ready : Ready false f s
  indexed : s.session.Indexed
  scope : f.scope = .inClass cls
  notVoid : cls ≠ Primitive.void.uid

theorem Composed.ready {α : Type} {m : Lower α} {P : Instruction → Prop} (hm : Composed false True P m)
    (hs : Ready false f s) {a : α} (hrun : m f s = .ok a t) : Ready false f t := by
  have hsafe := (hm f s fun _ => hs).safe trivial hs
  rw [hrun] at hsafe
  exact hsafe.1

theorem composed_lowerDefinitions (l : List (Function × Bool)) :
    Composed false True Anything (lowerDefinitions l) :=
  .forM fun _ _ => .lowerFunction (fun n _ => steady n) _

section
variable {cls : Nat} (hs : EntersClass cls f s) {s₀ : State} (hmembers : lowerMembers c.members f s = .ok () s₀)
include hs

/-- Behind the members the body of the class is lowered. -/
theorem EntersClass.classBody (hmembers : lowerMembers c.members f s = .ok () s₀) : ClassBody cls f s₀.session := by
  have hready := (Composed.lowerMembers (P := fun _ => False) c.members).ready hs.ready hmembers
  exact ⟨hs.scope, hs.notVoid, hready.mode, hready.tidy.coherent, hready.stands.placed, hready.looksOut.blocks⟩

variable {i : Nat} {fn : Function} (h : Begins c f s i fn g u)
include h

/-- The body of the procedure is opened, and then its parameters are declared. -/
theorem Begins.opened : ∃ (start : Session) (args : List Argument),
    Ready false g { session := start } ∧ declareParams args g { session := start } = .ok () u ∧
      args.map Argument.name = fn.params.map Parameter.name ∧ g.IsOwn ∧
      ∃ hd, start.header? g.block = some hd ∧ hd.symbols = {} := by
  obtain ⟨-, hbefore, hheader, hparams⟩ := h
  next isGenerated r r' p =>
  obtain ⟨_, s₁, hmembers', hbefore⟩ := bind_eq_ok.mp hbefore
  have hready₁ := (Composed.lowerMembers (P := fun _ => False) c.members).ready hs.ready hmembers'
  have hready₂ := (composed_lowerDefinitions _).ready hready₁ hbefore
  have hcomposed : Composed false True (fun _ => False) (functionHeader fn isGenerated) :=
    .bind (.resolveType _ _) fun _ => .bind (.resolveParams _) fun _ => .bind (.lowerAttributes _) fun _ => .pure _
  have hready₃ := hcomposed.ready hready₂ hheader
  have hnames : p.args.map Argument.name = fn.params.map Parameter.name := by
    obtain ⟨_, _, -, hheader⟩ := bind_eq_ok.mp hheader
    obtain ⟨args, _, hargs, hheader⟩ := bind_eq_ok.mp hheader
    obtain ⟨_, _, -, hdone⟩ := bind_eq_ok.mp hheader
    cases hdone
    exact resolveParams_names hargs
  have hnew := Session.header?_openProcedure r'.session f p (bodyMessage fn.name r'.session.blocks.size)
    r'.session.blocks.size
  rw [if_pos rfl] at hnew
  exact ⟨_, p.args, hready₃.openProcedure p _ fn.body, hparams, hnames, rfl, _, hnew, rfl⟩

theorem Begins.ready : Ready false g u := by
  obtain ⟨start, args, hready, hparams, -⟩ := h.opened hs
  have hsafe := safe_declareParams hready args
  rw [hparams] at hsafe
  exact hsafe.1

/-- When the code of a procedure begins, the procedure has declared its parameters. -/
theorem Begins.lacks_iff {name : String} : u.session.Lacks g.block name ↔ name ∉ fn.params.map Parameter.name := by
  obtain ⟨start, args, hready, hparams, hnames, hown, hd, hhd, hempty⟩ := h.opened hs
  have hlacks : start.Lacks g.block name := by
    intro i x hx
    rw [Session.symbol?_block, hhd, Option.bind_some, hempty] at hx
    cases hx
  rw [lacks_declareParams hown hready.looksOut hparams, hnames]
  exact and_iff_right hlacks

include hmembers

/-- Wherever lowering gets from the beginning of a procedure on, it is in the body of that procedure. -/
theorem Begins.methodBody {K : OpCode → Prop} {w : Session} (hw : Evolves K g.site u.session w) :
    MethodBody cls f s₀.session g w := by
  have hready := h.ready hs
  have hkept := invariant_coherent.evolves hw ⟨hready.tidy.coherent, hready.site (g := g.site) rfl |>.stands.placed⟩
  obtain ⟨-, hbefore, hheader, hparams⟩ := h
  next isGenerated r r' p =>
  obtain ⟨_, s₁, hmembers', hbefore⟩ := bind_eq_ok.mp hbefore
  cases hmembers.symm.trans hmembers'
  let start := r'.session.openProcedure f p (bodyMessage fn.name r'.session.blocks.size)
  let g := bodyUnit f r'.session fn.body
  have hstart : Evolves K g.site start u.session := by
    have hparams' := evolving_declareParams (K := K) p.args g { session := start }
    rwa [hparams] at hparams'
  have houter : s₀.session.Surrounds r'.session :=
    (surrounds_lowerDefinitions hbefore).trans (.ofSameNames (functionHeader_sameNames hheader))
  have hopened : s₀.session.Surrounds start := houter.trans (.openProcedure _ _ _ _)
  have hevolves := hstart.trans hw
  have hinner := (invariant_surrounds s₀.session).evolves hevolves ⟨rfl, houter.size, hopened⟩
  have hnew := Session.header?_openProcedure r'.session f p (bodyMessage fn.name r'.session.blocks.size)
    r'.session.blocks.size
  rw [if_pos rfl] at hnew
  obtain ⟨hd, hhd, hextends⟩ := hevolves.extends.old _ _ hnew
  have hbegun : s.session.Extends r.session := by
    have hevolving : Evolving (fun _ => True)
        (lowerMembers c.members >>= fun _ => lowerDefinitions (c.definitions.take i)) :=
      .bind (.lowerMembers _) fun _ => .forM fun _ _ => .lowerFunction Evolving.statement _ _
    have hsettled := hevolving f s
    rw [bind_eq_ok.mpr ⟨_, s₀, hmembers, hbefore⟩] at hsettled
    exact Evolves.extends hsettled
  have hlookedUp := Session.extends_of_headers (functionHeader_sameNames hheader).headers
  have hall := ((hbegun.trans hlookedUp).trans (Session.extends_of_new rfl
    (Session.header?_openProcedure r'.session f p (bodyMessage fn.name r'.session.blocks.size)))).trans hevolves.extends
  have howner : (r'.session.nextProcedure f.scope).classScope = some cls := by
    rw [hs.scope]
    rfl
  exact ⟨hinner.2.2, houter.size, howner, rfl, rfl, ⟨hd, hhd, hextends.parent⟩, hkept.1, ⟨hkept.2.block, hkept.2.body⟩,
    hall.indexed hs.indexed⟩

end

/-! ## Members that are declared -/

/-- What is found in a table is found in the longer one, if maybe elsewhere. -/
theorem findNamed?_append_isSome {t : SymbolTable} {name : String} {p : Symbol → Bool}
    (h : (t.findNamed? name p).isSome) (x : Symbol) : ((t.append x).findNamed? name p).isSome := by
  rw [SymbolTable.findNamed?_eq_find?, List.find?_isSome] at h ⊢
  obtain ⟨i, hi, hp⟩ := h
  refine ⟨i, ?_, ?_⟩
  · rw [SymbolTable.indicesOf_append]
    split
    · exact List.mem_append_left _ hi
    · exact hi
  · cases hy : t.get? i with
    | none =>
      rw [hy] at hp
      cases hp
    | some y =>
      rw [SymbolTable.get?_append_of_some hy]
      rwa [hy] at hp

/-- The class has a member of the name. -/
def HasMember (cls : Nat) (name : String) (s : Session) : Prop :=
  ((s.classes.get? cls).bind (ClassTable.declaredSymbol name)).isSome

section
variable {cls : Nat} {name : String}

theorem searchMember_ne_missing {t : ClassTable} {context : Option Nat} {declared : Class → Option (Nat × Access)}
    (m : MemberRef) (l : List Nat) : t.searchMember context declared (some m) l ≠ .missing := by
  induction l generalizing m with
  | nil => exact MemberLookup.noConfusion
  | cons owner rest ih =>
    rw [ClassTable.searchMember]
    split
    · split
      · exact MemberLookup.noConfusion
      · exact ih _
    · exact ih _

/-- A member of the class goes before the variables of its name. -/
theorem ClassBody.memberFirst?_isSome {s : Session} (h : ClassBody cls f s) (hmember : HasMember cls name s) :
    ((sightFrom f s).memberFirst? name).isSome := by
  obtain ⟨⟨i, access⟩, hdeclared⟩ := Option.isSome_iff_exists.mp hmember
  have hlineage : ∃ rest, s.classes.lineage cls = cls :: rest := by
    unfold ClassTable.lineage ClassTable.lineageFrom
    split
    · exact ⟨_, rfl⟩
    · exact ⟨_, rfl⟩
  have hlookup : s.classes.lookupMember cls name (some cls) ≠ .missing := by
    obtain ⟨rest, hrest⟩ := hlineage
    unfold ClassTable.lookupMember
    rw [hrest, ClassTable.searchMember, hdeclared]
    dsimp only
    split
    · exact MemberLookup.noConfusion
    · exact searchMember_ne_missing _ _
  have hclass : (sightFrom f s).inClass cls name ≠ .unbound := by
    have hframe : (sightFrom f s).frame = f := rfl
    unfold Sight.inClass
    rw [hframe, h.scope]
    dsimp only [Scope.inClass]
    split
    · next hmissing => exact absurd hmissing hlookup
    · exact Resolution.noConfusion
    · split <;> exact Resolution.noConfusion
  unfold Sight.memberFirst?
  rw [h.isNested, if_neg Bool.false_ne_true]
  change (f.scope.classScope.bind _).isSome
  rw [h.scope]
  dsimp only [Scope.inClass, Option.bind_some]
  split
  · next hunbound => exact absurd hunbound hclass
  · rfl

theorem classes_enterMember (s : Session) (cls : Nat) (x : Symbol) :
    (s.enterMember cls x).classes = s.classes.appendSymbol cls x := by
  unfold Session.enterMember
  split <;> rfl

/-- A member that is declared in a class stands beside the members that the class has. -/
theorem hasMember_declare (hscope : f.scope = .inClass cls) {s : Session} (hw : s.isWatching = false) {d : Declaration}
    (hcan : s.CanDeclare f d) :
    HasMember cls d.name (s.declare f d) ∧ ∀ name, HasMember cls name s → HasMember cls name (s.declare f d) := by
  obtain ⟨cls', counters, -, -, hcls, hsome, heq⟩ | ⟨counters, hlocal, -, -⟩ := s.declare_cases f d
  case inr =>
    rw [hw, hscope] at hlocal
    obtain hlocal | hlocal | hlocal := hlocal <;> cases hlocal
  rw [hscope] at hcls
  cases hcls
  obtain ⟨k, hk⟩ := Option.isSome_iff_exists.mp (hsome hcan)
  have hclass : (s.declare f d).classes.get? cls = some { k with symbols := k.symbols.append (s.declared f d) } := by
    rw [heq, classes_enterMember]
    unfold ClassTable.appendSymbol
    rw [ClassTable.get?_modify, if_pos rfl, hk]
    rfl
  have hfound (name : String) : HasMember cls name (s.declare f d) ↔
      ((k.symbols.append (s.declared f d)).findNamed? name fun x => x.function == none).isSome := by
    unfold HasMember ClassTable.declaredSymbol
    rw [hclass, Option.bind_some, Option.isSome_map]
    rfl
  constructor
  · rw [hfound]
    refine SymbolTable.findNamed?_append_isSome (x := s.declared f d) ?_
    change (f.scope.function == none) = true
    rw [hscope]
    rfl
  · intro name hname
    rw [hfound]
    refine findNamed?_append_isSome ?_ _
    unfold HasMember ClassTable.declaredSymbol at hname
    rwa [hk, Option.bind_some, Option.isSome_map] at hname

theorem hasMember_lowerMembers (hscope : f.scope = .inClass cls) (hw : s.session.isWatching = false)
    {members : List Variable} (hrun : lowerMembers members f s = .ok () t) :
    (∀ name, HasMember cls name s.session → HasMember cls name t.session) ∧
      ∀ v ∈ members, HasMember cls v.name t.session := by
  induction members generalizing s with
  | nil =>
    cases hrun
    exact ⟨fun _ => id, nofun⟩
  | cons v rest ih =>
    obtain ⟨type, r, htype, hrun⟩ := bind_eq_ok.mp hrun
    obtain ⟨_, r', hallocate, hrun⟩ := bind_eq_ok.mp hrun
    have hsame : r = s := by
      cases huid : s.session.classes.indexOf? v.type.name with
      | none =>
        simp only [resolveType, run_bind, run_getSession, huid] at htype
        cases htype
      | some uid =>
        simp only [resolveType, run_bind, run_getSession, huid] at htype
        cases htype
        rfl
    cases hsame
    obtain ⟨hcan, _, hallocate'⟩ | ⟨_, _, hallocate'⟩ := allocate_cases (.ofVariable v type) f s
    case inr => cases hallocate.symm.trans hallocate'
    cases hallocate.symm.trans hallocate'
    obtain ⟨hself, hkept⟩ := hasMember_declare hscope hw hcan
    have hw' : (s.session.declare f (.ofVariable v type)).isWatching = false :=
      (Change.isWatching_eq (K := fun _ => True) (.declare _ hcan)).trans hw
    obtain ⟨hold, hrest⟩ := ih hw' hrun
    refine ⟨fun name hname => hold name (hkept name hname), fun v' hv' => ?_⟩
    obtain rfl | hv' := List.mem_cons.mp hv'
    · exact hold _ hself
    · exact hrest v' hv'

end

end Lowering

end Diglot
