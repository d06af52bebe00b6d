import Diglot.Proofs.Chains.Resolved
import Diglot.Proofs.Variables.Begun

/-! # First values in the constructors of a class

The initial value of a member is no code of its own: it is assigned to the member at the start of each constructor of
the class, and is lowered anew there. A name in it is looked up from the body of that constructor, so a parameter of
that name comes before the variables outside the class, as does a variable that the constructor has assigned; members of
the class come before both. `first_values_agree` says for two constructors when a name stands for the same in both, and
`parameter_captures_first_value` is a class in which it does not.
-/

set_option autoImplicit false

namespace Diglot

namespace Lowering

variable {f g : Frame} {s t u : State} {c : ClassDecl}

/-! ## First values -/

/-- The program is lowered, and the block has no symbol of the name. -/
structure StillLacks (block : Nat) (name : String) (s : Session) : Prop where
  isWatching : s.isWatching = false
  lacks : s.Lacks block name

theorem StillLacks.congr {block : Nat} {name : String} {s t : Session} (hnames : s.SameNames t)
    (h : StillLacks block name s) : StillLacks block name t :=
  ⟨hnames.isWatching.trans h.isWatching, fun i x hx => h.lacks i x ((hnames.symbol?_eq _).symm.trans hx)⟩

section
variable {block : Nat} {name : String}

theorem carries_stillLacks (f : Frame) : Carries (StillLacks block name) 0 f where
  endures := endures_of_sameNames StillLacks.congr f.block
  isWatching _ h := h.isWatching
  uid _ _ := StillLacks.congr ⟨rfl, rfl, rfl, rfl, rfl, rfl⟩
  code s _ hk _ := StillLacks.congr (Session.sameNames_modifyBlock (fun b => (hk b).1) s f.block)

namespace Sparing

/-- What is declared under another name leaves the name undeclared. -/
theorem allocateOther {d : Declaration} (hd : d.name ≠ name) :
    Spares (StillLacks block name) f (Lowering.allocate d) := by
  refine allocateWith (P := fun x => x.name ≠ name) (fun _ _ => hd) (fun s bucket size hs => ⟨hs.isWatching, hs.lacks⟩)
    (fun s cls x _ hs => ⟨hs.isWatching, hs.lacks⟩) fun s id inBlock x hx hs => ?_
  exact ⟨hs.isWatching, lacks_enterLocal (x := { x with block := inBlock }) hs.lacks hx⟩

theorem probeOther (hforward : name ∉ f.forward) (node : Node) :
    Spares (StillLacks block name) f (Lowering.probe node) := by
  refine probeDeclaring (carries_stillLacks f).endures (fun other => withFrame ?_) node
  by_cases hother : f.forward.contains other = true
  · rw [if_pos hother]
    refine andThen sight fun v => ite (andThen (allocateOther ?_) fun _ => pure trivial) (pure trivial)
    rintro rfl
    exact hforward (List.contains_iff_mem.mp hother)
  · rw [if_neg hother]
    exact pure trivial

theorem assignOther (ident : Identifier) (type : Ty) (hident : ident.name ≠ name) :
    Spares (StillLacks block name) f (Lowering.assignTo (.identifier ident) type) := by
  have hI : Endures (StillLacks block name) 0 f.block := (carries_stillLacks f).endures
  refine assignFound hI _ type fun ident' heq => andThen sight fun v => ?_
  cases heq
  have hallocate : Spares (StillLacks block name) f
      (Lowering.allocate { name := ident.name, type := declaredType type }) := allocateOther hident
  split
  · exact pure trivial
  · exact andThen (report hI _ _ _) fun _ => hallocate
  · exact hallocate

theorem statementOther (hforward : name ∉ f.forward) (ident : Identifier) (hident : ident.name ≠ name) (value : Node)
    (span : Span) (isTemporary isLast : Bool) :
    Sparing (StillLacks block name) f (Lowering.graphStatement (.identifier ident) value span isTemporary isLast)
      fun n => n.block = f.block :=
  graphStatementWith (carries_stillLacks f) _ _ _ _ _ (probeOther hforward value)
    fun type => assignOther (f := { f with isTracked := true }) ident type hident

theorem nextPlain (hplain : IsPlainName name) :
    Sparing (StillLacks block name) f (Lowering.nextTemporary "%ssa_") (· ≠ name) := by
  refine withSession fun s _ => andThen (modifySession fun t ht => ⟨ht.isWatching, ht.lacks⟩) fun _ => pure ?_
  rintro rfl
  have hmadeUp := isTemporaryName_temporaryName s.counters.temporaries
  rw [show Text.isTemporaryName (temporaryName s.counters.temporaries) = false from hplain] at hmadeUp
  cases hmadeUp

section
variable (hplain : IsPlainName name) {f : Frame} (hforward : name ∉ f.forward) (ident : Identifier)
  (hident : ident.name ≠ name)
include hplain hforward hident

theorem factorsOther (span : Span) (factor : Node) (anchor : Option Nat) (rest : List Node) :
    Spares (StillLacks block name) f (Lowering.lowerFactors (.identifier ident) span factor anchor rest) := by
  have hhold (n : GraphNode) : Spares (StillLacks block name) f (Lowering.hold n) := modifyState fun _ => rfl
  have hfirst (temporary : String) (htemporary : temporary ≠ name) (factor : Node) (anchor : Option Nat)
      (isLast : Bool) :
      Spares (StillLacks block name) f (MonadWithReader.withReader (fun f => { f with anchor })
        (Lowering.graphStatement (.identifier (.plain temporary span)) factor span true isLast)) :=
    withReader (statementOther (f := { f with anchor }) hforward _ htemporary _ _ _ _).spares
  induction rest generalizing factor anchor with
  | nil =>
    refine bind (nextPlain hplain) fun temporary htemporary => andThen (hfirst _ htemporary _ _ _) fun _ => ?_
    exact andThen (hhold _) fun _ => andThen (statementOther hforward ident hident _ _ _ _).spares fun _ => hhold _
  | cons segment rest ih =>
    refine bind (nextPlain hplain) fun temporary htemporary => andThen (hfirst _ htemporary _ _ _) fun _ => ?_
    exact andThen (hhold _) fun _ => andThen (modifyState fun _ => rfl) fun _ => ih _ _

/-- The assignment to another name leaves the name undeclared, if the code around assigns it nowhere. -/
theorem updateOther (value : Node) (span : Span) :
    Spares (StillLacks block name) f (Lowering.lowerUpdate (.identifier ident) value span) := by
  refine lowerUpdateWith (carries_stillLacks f) _ _ _ (fun segments => andThen sight fun v => ?_)
    (statementOther hforward ident hident _ _ _ _)
  have hfactors (factor : Node) (anchor : Option Nat) (rest : List Node) :
      Spares (StillLacks block name) f (Lowering.lowerFactors (.identifier ident) span factor anchor rest) :=
    factorsOther hplain hforward ident hident span factor anchor rest
  split
  · exact andThen (modifyState fun _ => rfl) fun _ => hfactors _ _ _
  · exact andThen (modifyState fun _ => rfl) fun _ => hfactors _ _ _
  · exact defect _

theorem firstValueOther (value : Node) (span : Span) :
    Spares (StillLacks block name) f (Lowering.statement (.assign (.identifier ident) value span)) := by
  rw [statement_eq]
  refine withFrame ?_
  cases f.dialect with
  | associative => exact andThen (updateOther hplain hforward ident hident _ _) fun _ => pure trivial
  | imperative =>
    have hI : Endures (StillLacks block name) 0 f.block := (carries_stillLacks f).endures
    refine andThen (andThen (modifyState fun _ => rfl) fun _ => andThen (expression _ hI) fun type => ?_)
      fun _ => pure trivial
    exact andThen (assignOther ident type hident) fun _ => pure trivial

end

end Sparing

end

/-! ## What first values read -/

/-- The procedure, whose code begins in frame `g` and state `u`, has come to the first value: those before it have
been lowered, and then names that the procedure assigns later may have been declared ahead of the value. -/
inductive ReadsFirst (c : ClassDecl) (g : Frame) (u : State) (value : Node) : Session → Prop where
  | before {before after : List Node} {target : Node} {span : Span} {exits : Exits} {w : State} :
      c.firstValues = before ++ .assign target value span :: after →
      lowerAll statement before g u = .ok exits w → ReadsFirst c g u value w.session
  | ahead {before after : List Node} {target : Node} {span : Span} {exits : Exits} {w w' : State} :
      c.firstValues = before ++ .assign target value span :: after →
      lowerAll statement before g u = .ok exits w → probe value g w = .ok () w' → ReadsFirst c g u value w'.session

section
variable {cls i : Nat} {s₀ : State} {fn : Function} {value : Node} {w : Session} {name : String}

theorem ReadsFirst.evolves (h : ReadsFirst c g u value w) : Evolves (fun _ => True) g.site u.session w := by
  have hall (before : List Node) {exits : Exits} {w : State} (hrun : lowerAll statement before g u = .ok exits w) :
      Evolves (fun _ => True) g.site u.session w.session := by
    have hevolving := Evolving.lowerAll (K := fun _ => True) Evolving.statement before g u
    rwa [hrun] at hevolving
  cases h with
  | before _ hrun => exact hall _ hrun
  | @ahead before after target span exits w w' _ hrun hahead =>
    have hevolving := Evolving.probe (K := fun _ => True) value g w
    rw [hahead] at hevolving
    exact (hall _ hrun).trans hevolving

/-- The first values are assigned to members of the class. -/
theorem mem_firstValues {n : Node} (hn : n ∈ c.firstValues) :
    ∃ v value, v ∈ c.members ∧ n = .assign (.identifier (.plain v.name v.span)) value v.span := by
  obtain ⟨v, hv, hfirst⟩ := List.mem_filterMap.mp hn
  obtain ⟨value, -, rfl⟩ := Option.map_eq_some_iff.mp hfirst
  exact ⟨v, value, (List.mem_filter.mp hv).1, rfl⟩

/-- While the first values are lowered, a procedure declares nothing but names that it assigns later. -/
theorem ReadsFirst.lacks (h : ReadsFirst c g u value w) (hw : u.session.isWatching = false)
    (hmember : ∀ v ∈ c.members, v.name ≠ name) (hplain : IsPlainName name) (hforward : name ∉ g.forward)
    (hlacks : u.session.Lacks g.block name) : w.Lacks g.block name := by
  have hall (before : List Node) (hbefore : ∀ n ∈ before, n ∈ c.firstValues) :
      Spares (StillLacks g.block name) g (lowerAll statement before) := by
    induction before with
    | nil => exact .pure trivial
    | cons n rest ih =>
      obtain ⟨v, value, hv, rfl⟩ := mem_firstValues (hbefore _ (List.mem_cons_self ..))
      refine .andThen (Sparing.firstValueOther hplain hforward _ (hmember v hv) _ _) fun _ => ?_
      exact .andThen (ih fun m hm => hbefore m (List.mem_cons_of_mem _ hm)) fun _ => .pure trivial
  have hbegun : StillLacks g.block name u.session := ⟨hw, hlacks⟩
  cases h with
  | before hfirst hrun =>
    exact ((hall _ fun n hn => hfirst ▸ List.mem_append_left _ hn).ok hbegun hrun).lacks
  | ahead hfirst hrun hahead =>
    have hthere := (hall _ fun n hn => hfirst ▸ List.mem_append_left _ hn).ok hbegun hrun
    exact ((Sparing.probeOther hforward value).ok hthere hahead).lacks

end

/-- A class that is lowered to the end is registered, and then its body is lowered to the end. -/
theorem lowerClass_enters (hready : Ready false f s) (hindexed : s.session.Indexed) (hscope : f.scope = .global)
    (hvoid : Primitive.void.uid < s.session.classes.size) (hrun : lowerClass statement c f s = .ok () t) :
    ∃ cls s₁, EntersClass cls { f with scope := .inClass cls } s₁ ∧
      lowerClassBody statement c { f with scope := .inClass cls } s₁ = .ok () t := by
  have hproc : f.scope.procedure = none := by rw [hscope]; rfl
  obtain ⟨base, r, hbase, hrest⟩ := bind_eq_ok.mp hrun
  obtain ⟨hcourse, hfound⟩ := Yields.resolveBase (D := True) (P := fun _ => False) c fun _ => hready
  have hready₁ : Ready false f r := by
    have hsafe := hcourse.safe trivial hready
    rw [hbase] at hsafe
    exact hsafe.1
  obtain ⟨attributes, r', hattributes, hrest⟩ := bind_eq_ok.mp hrest
  have hready₂ : Ready false f r' :=
    (Composed.lowerAttributes (P := fun _ => False) (D := True) c.attributes).ready hready₁ hattributes
  have hsame₁ : s.session.SameNames r.session :=
    (Sparing.resolveBase (endures_sameNames s.session f.block) c).ok (.refl _) hbase
  have hsame₂ : r.session.SameNames r'.session :=
    (Sparing.lowerAttributes (endures_sameNames r.session f.block) c.attributes).ok (.refl _) hattributes
  have hsame := hsame₁.trans hsame₂
  rw [run_bind, run_getSession] at hrest
  dsimp only at hrest
  cases happ : r'.session.classes.append? { name := c.name, base, attributes } with
  | none =>
    rw [happ] at hrest
    cases hrest
  | some classes =>
    rw [happ] at hrest
    simp only [run_bind, run_modifySession, run_note, run_withReader] at hrest
    have hgrows := Session.grows_appendClass happ
    have htidy : Session.Tidy { r'.session with classes } := by
      refine hready₂.tidy.appendClass SymbolTable.numbered_empty ⟨ProcedureTable.numbered_empty, fun b hb => ?_⟩ happ
      rw [hsame₂.classes]
      exact hfound base r hbase trivial b hb
    have hadded : Ready false f { r' with session := { r'.session with classes } } :=
      hready₂.outer htidy hgrows hready₂.mode
    have hnoted := hadded.change (K := fun _ => True)
      (.note .debug .code ("class '" ++ c.name ++ "' is #" ++ toString r'.session.classes.size))
    have hclass : (classes.get? r'.session.classes.size).isSome := by
      rw [ClassTable.get?_append? happ, if_pos rfl]
      rfl
    refine ⟨_, _, ⟨hnoted.inClass hproc hclass, ?_, rfl, ?_⟩, hrest⟩
    · exact (Session.extends_of_headers (t := { r'.session with classes }) hsame.headers).indexed hindexed
    · rw [hsame.classes]
      exact (Nat.ne_of_lt hvoid).symm

/-- What a constructor has declared itself where a first value is read: its parameters, and else only what its body
assigns, and made-up variables. -/
structure OwnNames (fn : Function) (g : Frame) (w : Session) (name : String) : Prop where
  params : name ∈ fn.params.map Parameter.name → ¬ w.Lacks g.block name
  others : name ∉ fn.params.map Parameter.name → name ∉ forwardNames fn.body → IsPlainName name →
    (sightFrom g w).memberFirst? name = none → w.Lacks g.block name

/-- A constructor looks ahead to what its body assigns. -/
theorem Begins.forward {i : Nat} {fn : Function} (h : Begins c f s i fn g u) {name : String}
    (hname : name ∈ g.forward) : name ∈ forwardNames fn.body := by
  obtain ⟨-, -, -, -⟩ := h
  unfold bodyUnit unitFrame at hname
  dsimp only at hname
  split at hname
  · exact hname
  · cases hname

theorem Begins.ownNames {cls i : Nat} {fn : Function} (hs : EntersClass cls f s) {s₀ : State}
    (hmembers : lowerMembers c.members f s = .ok () s₀) (h : Begins c f s i fn g u) {value : Node} {w : Session}
    (hw : ReadsFirst c g u value w) (name : String) : OwnNames fn g w name where
  params hparam hlacks := (h.lacks_iff hs).mp (hlacks.of_extends hw.evolves.extends) hparam
  others hparam hforward hplain hmember := by
    have hbody := hs.classBody hmembers
    rw [(h.methodBody hs hmembers hw.evolves).memberFirst?_eq hbody] at hmember
    have hother (v : Variable) (hv : v ∈ c.members) : v.name ≠ name := by
      rintro rfl
      have hthere := (hasMember_lowerMembers hs.scope hs.ready.mode hmembers).2 v hv
      have hsome := hbody.memberFirst?_isSome hthere
      rw [hmember] at hsome
      cases hsome
    exact hw.lacks (h.ready hs).mode hother hplain (fun hn => hforward (h.forward hn)) ((h.lacks_iff hs).mpr hparam)

/-- The code of a constructor begins, with the first values of the members in front. -/
structure BeginsConstructor (c : ClassDecl) (f : Frame) (s : State) (i : Nat) (fn : Function) (g : Frame)
    (u : State) : Prop where
  begins : Begins c f s i fn g u
  body : ∃ rest, fn.body = c.firstValues ++ rest

/-- In two constructors of a class a name of a first value stands for the same if and only if it is that of a member
of the class, or none of the two constructors has declared it itself. -/
theorem first_values_agree (hready : Ready false f s) (hindexed : s.session.Indexed) (hscope : f.scope = .global)
    (hvoid : Primitive.void.uid < s.session.classes.size) (hrun : lowerClass statement c f s = .ok () t) :
    ∃ cls s₁, lowerClassBody statement c { f with scope := .inClass cls } s₁ = .ok () t ∧
      ∀ (i j : Nat) (d d' : Function × Bool), i ≠ j → c.definitions[i]? = some d → c.definitions[j]? = some d' →
        d.1.isConstructor = true → d'.1.isConstructor = true →
        ∃ g u g' u', BeginsConstructor c { f with scope := .inClass cls } s₁ i d.1 g u ∧
          BeginsConstructor c { f with scope := .inClass cls } s₁ j d'.1 g' u' ∧
          ∀ value w w', ReadsFirst c g u value w → ReadsFirst c g' u' value w' → ∀ name,
            ((sightFrom g w).resolve name = (sightFrom g' w').resolve name ↔
              ((sightFrom g w).memberFirst? name).isSome ∨ w.Lacks g.block name ∧ w'.Lacks g'.block name) ∧
            OwnNames d.1 g w name ∧ OwnNames d'.1 g' w' name := by
  obtain ⟨cls, s₁, hs, hbody⟩ := lowerClass_enters hready hindexed hscope hvoid hrun
  refine ⟨cls, s₁, hbody, fun i j d d' hij hd hd' hctor hctor' => ?_⟩
  obtain ⟨g, u, h⟩ := exists_begins hbody hd
  obtain ⟨g', u', h'⟩ := exists_begins hbody hd'
  obtain ⟨_, s₀, hmembers, -⟩ := bind_eq_ok.mp (lowerClassBody_eq c ▸ hbody)
  have hne : g.block ≠ g'.block := by
    obtain hlt | hlt := Nat.lt_or_gt_of_ne hij
    · exact Nat.ne_of_lt (h.block_ne hlt h')
    · exact (Nat.ne_of_lt (h'.block_ne hlt h)).symm
  refine ⟨g, u, g', u', ⟨h, ClassDecl.body_of_isConstructor (List.mem_of_getElem? hd) hctor⟩,
    ⟨h', ClassDecl.body_of_isConstructor (List.mem_of_getElem? hd') hctor'⟩, fun value w w' hw hw' name =>
      ⟨?_, h.ownNames hs hmembers hw name, h'.ownNames hs hmembers hw' name⟩⟩
  have hmethod := h.methodBody hs hmembers hw.evolves
  rw [hmethod.memberFirst?_eq (hs.classBody hmembers)]
  exact hmethod.resolve_eq_iff (hs.classBody hmembers) (h'.methodBody hs hmembers hw'.evolves) hne

/-! ## A parameter that takes the name of a variable -/

/-- A class whose member `x` gets its first value from `g`, which is a parameter of the first constructor. -/
def capturingClass : ClassDecl :=
  { name := "C", base := none
    members := [⟨"x", .var, some (bareName "g"), false, .isPublic, .stack, .nil⟩]
    methods :=
      [{ generated "A" [⟨"g", .var, none, .nil⟩] [] with isConstructor := true },
        { generated "B" [] [] with isConstructor := true }]
    attributes := [], span := .nil }

/-- A unit that gives `h` and `g` values. -/
def variableUnit : List Node :=
  [.assign (bareName "h") (.literal .int "1" .nil) .nil, .assign (bareName "g") (.literal .int "2" .nil) .nil]

/-- The session in which `h` and `g` have values. -/
def variableSession : Session := (Session.compile (.new {}) variableUnit .associative).2

/-- The session in which a further unit begins. -/
def capturingStart : Session := (variableSession.unitStart .associative).2

/-- The frame of the further unit, which declares the class. -/
def capturingFrame : Frame :=
  unitFrame (variableSession.unitStart .associative).1 .global .associative [.classDecl capturingClass]

/-- The first constructor has declared its parameter `g` when it reads the first value, so that `g` stands for the same
in both constructors only if it is a member. -/
theorem capturing_first_values :
    ∃ cls s₁ g u g' u', BeginsConstructor capturingClass { capturingFrame with scope := .inClass cls } s₁ 2
        (capturingClass.definitions.get ⟨2, by decide⟩).1 g u ∧
      BeginsConstructor capturingClass { capturingFrame with scope := .inClass cls } s₁ 3
        (capturingClass.definitions.get ⟨3, by decide⟩).1 g' u' ∧
      ReadsFirst capturingClass g u (bareName "g") u.session ∧
      ReadsFirst capturingClass g' u' (bareName "g") u'.session ∧ ¬ u.session.Lacks g.block "g" ∧
      ((sightFrom g u.session).resolve "g" = (sightFrom g' u'.session).resolve "g" ↔
        ((sightFrom g u.session).memberFirst? "g").isSome) := by
  have hfit : variableSession.Fit := (Session.fit_new {}).compile variableUnit .associative
  have hindexed : capturingStart.Indexed :=
    ((Session.extends_unitStart _ _).indexed (Session.Used.indexed (.compile variableUnit .associative (.new {}))))
  have hvoid : Primitive.void.uid < capturingStart.classes.size := by decide +kernel
  have hready : Ready false capturingFrame { session := capturingStart } :=
    (hfit.unitStart [.classDecl capturingClass] .associative).1
  obtain ⟨⟨⟩, t, hrun⟩ := ok_of_matches (m := lowerClass statement capturingClass) (f := capturingFrame)
    (s := { session := capturingStart }) (by decide +kernel)
  -- The session is hidden, so that nothing but the kernel lowers its unit.
  generalize capturingStart = start at *
  obtain ⟨cls, s₁, -, hall⟩ := first_values_agree hready hindexed rfl hvoid hrun
  obtain ⟨g, u, g', u', h, h', hreads⟩ := hall 2 3 _ _ (by decide) (List.getElem?_eq_getElem (by decide))
    (List.getElem?_eq_getElem (by decide)) rfl rfl
  have hfirst (g : Frame) (u : State) : ReadsFirst capturingClass g u (bareName "g") u.session := by
    have hvalue : capturingClass.firstValues = [] ++ [.assign (bareName "x") (bareName "g") .nil] := rfl
    exact .before hvalue rfl
  obtain ⟨hiff, hown, -⟩ := hreads _ _ _ (hfirst g u) (hfirst g' u') "g"
  have hparam := hown.params (by decide)
  refine ⟨cls, s₁, g, u, g', u', h, h', hfirst g u, hfirst g' u', hparam, hiff.trans ?_⟩
  exact or_iff_left fun hlacks => hparam hlacks.1

/-- The body of the constructor in the given block. -/
def capturingBody (i block : Nat) : Frame :=
  { block, scope := { classScope := some 12, procedure := some ⟨some 12, i⟩, body := some block }
    dialect := .associative }

/-- What the first statement in a block reads. -/
def firstReads (s : Session) (block : Nat) : Option (List (Option SymbolRef)) :=
  (s.block? block).bind fun b => b.graph[0]?.map fun n => n.dependencies.flatten.map Segment.symbol

/-- The first value of `x` is read from the parameter `g` in the first constructor, and from the variable `g` in the
second one. -/
theorem parameter_captures_first_value :
    let s := (Session.compile (.new {}) (variableUnit ++ [.classDecl capturingClass]) .associative).2
    ((s.procedure? ⟨some 12, 2⟩).any fun p => p.isConstructor && p.block == some 3) ∧
      ((s.procedure? ⟨some 12, 3⟩).any fun p => p.isConstructor && p.block == some 4) ∧
      firstReads s 3 = some [some ⟨.block 3, 0⟩] ∧ firstReads s 4 = some [some ⟨.block 0, 1⟩] ∧
      (sightFrom (capturingBody 2 3) s).resolve "g" = .found ⟨.block 3, 0⟩ ∧
      (sightFrom (capturingBody 3 4) s).resolve "g" = .found ⟨.block 0, 1⟩ := by
  decide +kernel

end Lowering

end Diglot
