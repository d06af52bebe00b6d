import Diglot.Proofs.Ahead
import Diglot.Proofs.Chains.Resolved
import Diglot.Proofs.Paths.Matching

/-! # The type of a variable that its first value declares

An assignment to a name that stands for nothing declares a variable. Its type is that of the value or, in an
associative block, what the procedure that was called last returns, if the value is of unknown type
(`Frame.storedType`). So the variable has the type of its value, unless a procedure was called on the way to a value
of unknown type (`fresh_variable_type`); the rank of such a value is lost (`rank_of_list_lost`).
-/

set_option autoImplicit false

namespace Diglot.Lowering

variable {f : Frame} {s t : State} {ident : Identifier} {value : Node} {type : Ty} {path : Path} {span : Span}

/-! ## Names that stay unbound -/

/-- Looking ahead changes nothing for the names that it does not declare. -/
theorem Sight.resolve_withUntyped (hf : f.InCode) {s : Session} (hs : f.Surveys s) {names : List String}
    {name : String} (hname : name ∉ names) :
    (sightFrom f (s.withUntyped f names)).resolve name = (sightFrom f s).resolve name := by
  induction names generalizing s with
  | nil => rw [Session.withUntyped_nil hf.own]
  | cons first rest ih =>
    rw [List.mem_cons, not_or] at hname
    obtain ⟨hne, hrest⟩ := hname
    obtain ⟨r, _, -, hentered⟩ :=
      run_allocate_declare hf.own (s := { session := s }) hs.looksOut { name := first, type := .var }
    rw [Session.withUntyped_cons hf.own, ih (hs.declare hf _) hrest]
    exact hentered.resolve_other hs.indexed hne

theorem Session.extends_withUntyped (hf : f.InCode) (s : Session) (names : List String) :
    s.Extends (s.withUntyped f names) := by
  induction names generalizing s with
  | nil =>
    rw [Session.withUntyped_nil hf.own]
    exact .refl s
  | cons name rest ih =>
    rw [Session.withUntyped_cons hf.own]
    exact (s.extends_declare f _).trans (ih _)

/-- The code of an expression declares nothing. -/
theorem sameNames_expression {n : Node} (hrun : expression n f s = .ok type t) :
    s.session.SameNames t.session := by
  have hends := (Sparing.expression n (endures_sameNames s.session f.block) s (.refl _)).1
  rwa [hrun] at hends

/-! ## The store -/

/-- A store into a plain name that stands for nothing declares a variable, for which the name stands from then
on. -/
theorem assignTo_unbound (hf : f.HasStatements) (hlooks : f.LooksOut s.session) (hplain : ident.dims = [])
    (hfree : (sightFrom f s.session).resolve ident.name = .unbound)
    (hrun : assignTo (.identifier ident) type f s = .ok path t) :
    ∃ r y, s.session.symbol? r = none ∧ (∃ id i, r = ⟨.block id, i⟩) ∧
      (sightFrom f t.session).Shows ident.name r y ∧ y.type = declaredType type := by
  change (if ident.isThis then assignTo.invalid ident.span else storeIdentifier ident type) f s = .ok path t at hrun
  rw [run_ite] at hrun
  split at hrun
  · cases hrun
  obtain ⟨r, u, y, htarget, hy, -, hkept⟩ := storeIdentifier_ok hplain hrun
  have hnames := (hkept.inert rfl).1
  obtain ⟨r', y', u', hdeclared, hentered⟩ := run_targetSymbol_unbound ident hf.own hlooks hfree type
  cases htarget.symm.trans hdeclared
  obtain rfl := Option.some.inj (hy.symm.trans hentered.symbol)
  have hshows : (sightFrom f u.session).Shows ident.name r y :=
    ⟨hentered.resolve_self hf.own hf.notVoid hlooks rfl hfree, hentered.symbol⟩
  refine ⟨r, y, ?_, ?_, hshows.congr hnames, hentered.type⟩
  · obtain ⟨hd, hblock, rfl, -⟩ := hentered.place
    rw [Session.symbol?_block, hblock]
    simp [SymbolTable.get?, SymbolTable.size]
  · obtain ⟨hd, -, rfl, -⟩ := hentered.place
    exact ⟨_, _, rfl⟩

/-! ## The statement -/

/-- Lowers the value of an assignment as the statement does before its store. -/
def assignedValue (value : Node) : Lower Ty := do
  modify fun s => { s with lastCallee := none }
  match (← read).dialect with
  | .associative => do
    let fresh ← freshNode false
    probe value
    return (← tracking fresh (expression value)).1
  | .imperative => expression value

/-- The type that a value is stored with. -/
def Frame.storedType (f : Frame) (s : State) (type : Ty) : Ty :=
  match f.dialect with
  | .associative => s.refined type
  | .imperative => type

/-- A variable is declared with the type of its value, unless an associative block takes another procedure's result
for it. -/
theorem declaredType_storedType_iff (f : Frame) (s : State) (type : Ty) :
    declaredType (f.storedType s type) = declaredType type ↔
      f.dialect = .imperative ∨ type.is .var = false ∨
        ∀ p, s.lastCallee.bind s.session.procedure? = some p → declaredType p.returns = type := by
  unfold Frame.storedType State.refined
  cases f.dialect with
  | imperative => simp
  | associative =>
    cases hvar : type.is .var with
    | false => simp
    | true =>
      have hself : declaredType type = type := by
        unfold Ty.is at hvar
        have huid : type.uid = some Primitive.var.uid := by simpa using hvar
        simp [declaredType, Ty.is, huid, Primitive.uid]
      cases hp : s.lastCallee.bind s.session.procedure? with
      | none => simp
      | some p => simp [hself]

theorem Frame.HasStatements.tracked (hf : f.HasStatements) : Frame.HasStatements { f with isTracked := true } :=
  ⟨hf.own, hf.anchor, hf.notVoid⟩

theorem assignedValue_associative {v w : State} (hassoc : f.dialect = .associative)
    (hprobe : probe value f { s with
      lastCallee := none, session := { s.session with nextUid := s.session.nextUid + 1 } } = .ok () v)
    (hvalue : expression value { f with isTracked := true } { v with node := openNode f s false } = .ok type w) :
    assignedValue value f s = .ok type w := by
  unfold openNode at hvalue
  unfold assignedValue
  simp only [run_bind, run_modify, run_read]
  rw [hassoc]
  simp only [run_bind, run_freshNode, hprobe, run_tracking, hvalue, run_pure]

theorem lowerAssignment_fresh (hf : f.HasStatements) (hs : f.Surveys s.session) (hplain : ident.dims = [])
    (hfree : (sightFrom f s.session).resolve ident.name = .unbound) (himp : f.dialect = .imperative)
    (hrun : lowerAssignment (.identifier ident) value f s = .ok () t) :
    ∃ type u r y, assignedValue value f s = .ok type u ∧ s.session.symbol? r = none ∧
      (sightFrom f t.session).Shows ident.name r y ∧ y.type = declaredType type := by
  obtain ⟨⟨⟩, s₁, hforget, hrun⟩ := bind_eq_ok.mp hrun
  cases hforget
  obtain ⟨type, u, hvalue, hrun⟩ := bind_eq_ok.mp hrun
  obtain ⟨path, w, hstore, hrun⟩ := bind_eq_ok.mp hrun
  cases hrun
  have hnames := sameNames_expression hvalue
  have hfree' := (Sight.resolve_sightFrom hnames f ident.name).trans hfree
  obtain ⟨r, y, hnew, -, hshows, htype⟩ := assignTo_unbound hf (hs.looksOut.congr hnames) hplain hfree' hstore
  refine ⟨type, u, r, y, ?_, (hnames.symbol?_eq r).symm.trans hnew, hshows, htype⟩
  unfold assignedValue
  simp only [run_bind, run_modify, run_read, himp]
  exact hvalue

theorem lowerUpdate_fresh (hf : f.HasStatements) (hs : f.Surveys s.session) (hplain : ident.dims = [])
    (hfree : (sightFrom f s.session).resolve ident.name = .unbound) (hahead : ¬ value.Ahead ident.name)
    (hassoc : f.dialect = .associative) (hwhole : s.session.options.fullSsa = false)
    (hrun : lowerUpdate (.identifier ident) value span f s = .ok () t) :
    ∃ type u r y, assignedValue value f s = .ok type u ∧ s.session.symbol? r = none ∧
      (sightFrom f t.session).Shows ident.name r y ∧ y.type = declaredType (u.refined type) := by
  obtain ⟨value', s', n, u, hnode, hcommit, -, hsame⟩ := lowerUpdate_ok hrun
  obtain ⟨hvalue', rfl⟩ := hsame hwhole
  subst value'
  obtain ⟨v, type, w, w', path, x, _, _, hprobe, hvalue, -, hkeep, hstore, hkept, rfl⟩ := graphStatement_ok hnode
  obtain rfl := hkeep rfl
  have hcode : f.InCode := ⟨hf.own, hf.notVoid⟩
  -- The session in which looking ahead begins differs by a number that no lookup reads.
  let opened : Session := { s.session with nextUid := s.session.nextUid + 1 }
  have hopen : s.session.SameNames opened := ⟨rfl, rfl, rfl, rfl, rfl, rfl⟩
  have hopened : f.Surveys opened := ⟨hs.looksOut.congr hopen, hs.indexed⟩
  obtain ⟨names, -, hdeclared, ⟨hran, -⟩ | ⟨d, hran⟩⟩ :=
    Declares.probe hcode value { s with lastCallee := none, session := opened } hopened
  swap
  · cases hran.symm.trans hprobe
  cases hran.symm.trans hprobe
  have hnot : ident.name ∉ names := fun hmem => hahead (hdeclared _ hmem).1
  have hnames := sameNames_expression hvalue
  have hfree' : (sightFrom f w'.session).resolve ident.name = .unbound := by
    rw [Sight.resolve_sightFrom hnames]
    refine (Sight.resolve_withUntyped hcode hopened hnot).trans ?_
    rw [Sight.resolve_sightFrom hopen]
    exact hfree
  have hlooks : f.LooksOut w'.session := (hopened.withUntyped hcode names).looksOut.congr hnames
  obtain ⟨r, y, hnew, ⟨id, i, rfl⟩, hshows, htype⟩ :=
    assignTo_unbound hf.tracked ⟨hlooks.blocks, hlooks.body⟩ hplain hfree' hstore
  have hends := (hkept.inert rfl).1.trans hcommit
  have hshows' : (sightFrom f x.session).Shows ident.name ⟨.block id, i⟩ y := ⟨hshows.found, hshows.symbol⟩
  refine ⟨type, w', ⟨.block id, i⟩, y, assignedValue_associative hassoc hprobe hvalue, ?_, hshows'.congr hends,
    htype⟩
  · rw [Option.eq_none_iff_forall_ne_some]
    intro z hz
    have hgrown : opened.Extends w'.session :=
      (Session.extends_withUntyped hcode opened names).trans (Session.extends_of_headers hnames.headers)
    have hz' := hgrown.symbol? (x := z) ((hopen.symbol?_eq _).trans hz)
    rw [hnew] at hz'
    cases hz'

/-- An assignment to a name that stands for nothing, and that its value does not look up, declares a variable for it.
In an associative block without split chains, and in an imperative one, this variable has the type that was found
for the value, `var` standing for none, unless the block is associative, the type is unknown, and the procedure
that was called last returns something else. -/
theorem fresh_variable_type (hf : f.HasStatements) (hs : f.Surveys s.session) (hplain : ident.dims = [])
    (hfree : (sightFrom f s.session).resolve ident.name = .unbound) (hother : ident.name ∉ value.roots true)
    (hwhole : f.dialect = .associative → s.session.options.fullSsa = false) {exits : Exits}
    (hrun : statement (.assign (.identifier ident) value span) f s = .ok exits t) :
    ∃ type u r y, assignedValue value f s = .ok type u ∧ s.session.symbol? r = none ∧
      (sightFrom f t.session).Shows ident.name r y ∧ y.type = declaredType (f.storedType u type) ∧
      (y.type = declaredType type ↔
        f.dialect = .imperative ∨ type.is .var = false ∨
          ∀ p, u.lastCallee.bind u.session.procedure? = some p → declaredType p.returns = type) := by
  rw [statement_eq] at hrun
  obtain ⟨g, s', hread, hrun⟩ := bind_eq_ok.mp hrun
  cases hread
  suffices h : ∃ type u r y, assignedValue value f s = .ok type u ∧ s.session.symbol? r = none ∧
      (sightFrom f t.session).Shows ident.name r y ∧ y.type = declaredType (f.storedType u type) by
    obtain ⟨type, u, r, y, hvalue, hnew, hshows, htype⟩ := h
    refine ⟨type, u, r, y, hvalue, hnew, hshows, htype, ?_⟩
    rw [htype]
    exact declaredType_storedType_iff f u type
  cases hdialect : f.dialect with
  | associative =>
    rw [hdialect] at hrun
    obtain ⟨⟨⟩, u, hupdate, hrun⟩ := bind_eq_ok.mp hrun
    cases hrun
    have hahead : ¬ value.Ahead ident.name := fun h => hother h.mem_roots
    obtain ⟨type, w, r, y, hvalue, hnew, hshows, htype⟩ :=
      lowerUpdate_fresh hf hs hplain hfree hahead hdialect (hwhole hdialect) hupdate
    refine ⟨type, w, r, y, hvalue, hnew, hshows, htype.trans ?_⟩
    rw [Frame.storedType, hdialect]
  | imperative =>
    rw [hdialect] at hrun
    obtain ⟨⟨⟩, u, hassign, hrun⟩ := bind_eq_ok.mp hrun
    cases hrun
    obtain ⟨type, w, r, y, hvalue, hnew, hshows, htype⟩ := lowerAssignment_fresh hf hs hplain hfree hdialect hassign
    refine ⟨type, w, r, y, hvalue, hnew, hshows, htype.trans ?_⟩
    rw [Frame.storedType, hdialect]

/-- A session with a procedure `f` that returns an integer. -/
def calleeState : State :=
  let callee : Function :=
    { name := "f", params := [], returns := ⟨"int", 0⟩, body := [], attributes := [], isStatic := false
      isConstructor := false, access := .isPublic, span := .nil }
  { session := ((Session.new {}).compile [.function callee] .associative).2 }

def calleeFrame : Frame := { block := 0, scope := .global, dialect := .associative }

/-- The list of a call of `f` and another value. -/
def calleeList (other : Node) : Node :=
  .list [.call { name := "f", args := [], dims := [], guides := [], span := .nil }, other] [] [] .nil

/-- The type of a list of integers is known, so that the call in it does no harm. -/
theorem integers_typed :
    let one : Node := .literal .int "1" .nil
    let x : Node := .identifier (.plain "x" .nil)
    ∃ type u r y, assignedValue (calleeList one) calleeFrame calleeState = .ok type u ∧
      (sightFrom calleeFrame
        (ending (statement (.assign x (calleeList one) .nil) calleeFrame calleeState)).session).Shows "x" r y ∧
      type.is .var = false ∧ y.type = declaredType type := by
  intro one x
  have hlooks : calleeFrame.LooksOut calleeState.session := .of_global rfl (by decide +kernel)
  have hused : calleeState.session.Used := by
    unfold calleeState
    dsimp only
    exact .compile _ .associative (.new {})
  have hs : calleeFrame.Surveys calleeState.session := ⟨hlooks, hused.indexed⟩
  obtain ⟨exits, t, hrun⟩ := ok_of_matches (m := statement (.assign x (calleeList one) .nil)) (f := calleeFrame)
    (s := calleeState) (by decide +kernel)
  have hplain : (Identifier.plain "x" .nil).dims = [] := rfl
  obtain ⟨type, u, r, y, hvalue, -, hshows, -, hsame⟩ := fresh_variable_type (f := calleeFrame)
    ⟨rfl, rfl, by decide⟩ hs hplain (by decide +kernel) (by decide)
    (fun _ => by decide +kernel) hrun
  have hknown := of_decide_eq_true (of_ok (p := fun type _ => decide (type.is .var = false)) (by decide +kernel) hvalue)
  rw [hrun]
  exact ⟨type, u, r, y, hvalue, hshows, hknown, hsame.mpr (.inr (.inl hknown))⟩

/-- In an associative block the list `{f(), 1.5}`, of rank 1, is assigned to a variable that is declared as a single
integer, which is what `f` returns. -/
theorem rank_of_list_lost :
    let list := calleeList (.literal .double "1.5" .nil)
    let x : Node := .identifier (.plain "x" .nil)
    let t := ending (statement (.assign x list .nil) calleeFrame calleeState)
    (∃ u, assignedValue list calleeFrame calleeState = .ok ⟨some Primitive.var.uid, 1⟩ u) ∧
      (statement (.assign x list .nil) calleeFrame calleeState matches .ok _ _) = true ∧
      (sightFrom calleeFrame calleeState.session).resolve "x" = .unbound ∧
      (sightFrom calleeFrame t.session).resolve "x" = .found ⟨.block 0, 0⟩ ∧
      (t.session.symbol? ⟨.block 0, 0⟩).map Symbol.type = some (.primitive .int) := by
  intro list x t
  obtain ⟨htype, hdeclared⟩ :
      (match assignedValue list calleeFrame calleeState with
        | .ok type _ => decide (type = ⟨some Primitive.var.uid, 1⟩)
        | .error _ _ => false) = true ∧
      (statement (.assign x list .nil) calleeFrame calleeState matches .ok _ _) = true ∧
      (sightFrom calleeFrame calleeState.session).resolve "x" = .unbound ∧
      (sightFrom calleeFrame t.session).resolve "x" = .found ⟨.block 0, 0⟩ ∧
      (t.session.symbol? ⟨.block 0, 0⟩).map Symbol.type = some (.primitive .int) := by
    decide +kernel
  refine ⟨?_, hdeclared⟩
  cases hrun : assignedValue list calleeFrame calleeState with
  | error e u =>
    rw [hrun] at htype
    cases htype
  | ok type u =>
    rw [hrun] at htype
    exact ⟨u, by rw [of_decide_eq_true htype]⟩

end Diglot.Lowering
