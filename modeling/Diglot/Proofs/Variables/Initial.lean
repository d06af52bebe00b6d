import Diglot.Proofs.Anchors.Passes
import Diglot.Proofs.Spare.Update
import Diglot.Proofs.Variables.Fresh
import Diglot.Proofs.Variables.Shadowed

/-! # Where the first value of a variable goes

The first value of a variable is assigned to its name, as any statement would do it. So it goes to the variable only
if the name stands for it (`initial_value_stored`): if its scope had declared the name before, or a member of the
class has the name, then the value goes there, and the new variable gets none (`first_value_redeclared`).

`Binds` says what is known of the name from the declaration to the store, whatever the value is.
-/

set_option autoImplicit false

namespace Diglot.Lowering

variable {f : Frame} {s t u : State} {name : String} {ρ : Resolution} {r : SymbolRef} {x : Symbol}
  {ident : Identifier} {type : Ty} {target value : Node} {path : Path} {span : Span}

/-! ## Names that stay bound -/

/-- No watch expression is lowered, the name has its meaning, and the symbol is in its place. -/
structure Binds (f : Frame) (name : String) (ρ : Resolution) (r : SymbolRef) (x : Symbol) (s : Session) : Prop where
  isWatching : s.isWatching = false
  surveys : f.Surveys s
  resolve : (sightFrom f s).resolve name = ρ
  symbol : s.symbol? r = some x

namespace Binds

theorem congr {a b : Session} (hnames : a.SameNames b) (h : Binds f name ρ r x a) : Binds f name ρ r x b where
  isWatching := hnames.isWatching.trans h.isWatching
  surveys := ⟨h.surveys.looksOut.congr hnames, (Session.extends_of_headers hnames.headers).indexed h.surveys.indexed⟩
  resolve := (Sight.resolve_sightFrom hnames f name).trans h.resolve
  symbol := (hnames.symbol?_eq r).trans h.symbol

/-- Of the frame only its place among blocks and procedures matters. -/
theorem site {g : Frame} (hsite : g.site = f.site) {a : Session} (h : Binds f name ρ r x a) : Binds g name ρ r x a := by
  obtain ⟨block, scope, dialect⟩ := f
  obtain ⟨block', scope', dialect'⟩ := g
  cases hsite
  exact ⟨h.isWatching, ⟨⟨h.surveys.looksOut.blocks, h.surveys.looksOut.body⟩, h.surveys.indexed⟩, h.resolve, h.symbol⟩

end Binds

/-- Only a member that goes before variables can be out of reach. -/
theorem Sight.memberFirst?_of_inaccessible {v : Sight} (hvoid : v.frame.scope.classScope ≠ some Primitive.void.uid)
    (hnested : v.isNested = false) (h : v.resolve name = .inaccessible r) :
    v.memberFirst? name = some (.inaccessible r) := by
  have hmember := resolve_eq_of_not_found name hvoid fun r' hr' => by
    rw [h] at hr'
    cases hr'
  rw [h] at hmember
  unfold memberFirst?
  rw [hnested, if_neg Bool.false_ne_true]
  cases hcls : v.frame.scope.classScope with
  | none =>
    rw [hcls] at hmember
    cases hmember
  | some cls =>
    rw [hcls] at hmember
    dsimp only at hmember
    rw [Option.bind_some, ← hmember]

section
variable (hf : f.InCode) (hfirst : f.scope.classScope ≠ none → f.block ≠ 0) (hplace : r.owner = .block f.block)
  (hbound : ρ ≠ .unbound) (hreach : ∀ r', ρ = .inaccessible r' → ∀ s, (sightFrom f s).isNested = false)
include hf hfirst hplace hbound hreach

/-- A bound name keeps its meaning where a variable is declared, unless the name was found and is that of the
variable. -/
theorem Binds.entered (hs : Binds f name ρ r x s.session) {d : Declaration} {r' : SymbolRef} {y : Symbol}
    (hd : Entered f d r' y s t) (hfree : d.name = name → ∀ r', ρ ≠ .found r') : Binds f name ρ r x t.session := by
  obtain ⟨counters, hnames⟩ := hd.names
  have hextends := hd.extends_session
  refine ⟨hnames.isWatching.trans hs.isWatching,
    ⟨hd.looksOut hs.surveys.looksOut, hextends.indexed hs.surveys.indexed⟩, ?_, ?_⟩
  · by_cases hname : d.name = name
    · cases hρ : ρ with
      | unbound => exact absurd hρ hbound
      | found r'' => exact absurd hρ (hfree hname r'')
      | inaccessible r'' =>
        have hbefore := hs.resolve
        rw [hρ, ← hname] at hbefore
        have hmember := Sight.memberFirst?_of_inaccessible hf.notVoid (hreach r'' hρ s.session) hbefore
        rw [← hname, hd.resolve_name hf hs.surveys hs.isWatching hfirst, hmember, Option.getD_some]
    · exact (hd.resolve_other hs.surveys.indexed fun heq => hname heq.symm).trans hs.resolve
  · obtain ⟨owner, i⟩ := r
    cases hplace
    exact hextends.symbol? hs.symbol

/-- A bound name keeps its meaning in the course of a statement, which declares names that were not found. A name
that is out of reach is declared as well, and stays out of reach where the members of the class go first. -/
theorem hosts_binds :
    Hosts (Binds f name ρ r x) 0 (fun other => other = name → ∀ r', ρ ≠ .found r') f where
  endures := endures_of_sameNames Binds.congr f.block
  isWatching _ h := h.isWatching
  temporaries _ _ := Binds.congr ⟨rfl, rfl, rfl, rfl, rfl, rfl⟩
  uid _ _ := Binds.congr ⟨rfl, rfl, rfl, rfl, rfl, rfl⟩
  code s k hk _ := Binds.congr (Session.sameNames_modifyBlock (fun b => (hk b).1) s f.block)
  unseen h s v other hsite hs hv hnot hname r' hr' := by
    have hsight : sight h { session := s } = .ok v { session := s } := by
      rw [run_sight]
      dsimp only
      rw [hv]
    obtain ⟨-, rfl⟩ := sight_ok hsight
    exact hnot r' (hname ▸ (hs.site hsite).resolve.trans hr')
  allocate h d hsite _ hfree := by
    intro s hs
    have hs' := hs.site hsite
    suffices ∃ r' t, allocate d h s = .ok r' t ∧ Binds h name ρ r x t.session by
      obtain ⟨r', t, hrun, ht⟩ := this
      rw [hrun]
      exact ⟨ht.site hsite.symm, fun _ _ _ => trivial⟩
    obtain ⟨block, scope, dialect⟩ := f
    obtain ⟨block', scope', dialect'⟩ := h
    cases hsite
    obtain ⟨r', y, t, hrun, hentered⟩ := run_allocate_entered (by exact hf.own) hs'.surveys.looksOut d
    exact ⟨r', t, hrun, Binds.entered ⟨hf.own, hf.notVoid⟩ hfirst hplace hbound hreach hs' hentered hfree⟩

end

/-! ## Stores -/

/-- The instructions that store the value on top into a variable. -/
def storeCode (cls : Option Nat) (x : Symbol) : List Instruction :=
  [.binary .push (.block x.block) (.cls cls), .binary .push (.arrayDim 0) (.cls cls),
    .binary .push (.staticType x.type) (.cls cls), .ternary .pop (.ofSymbol x) (.cls x.classScope) (.arrayDim 0)]

/-- The instructions that a statement ends with. -/
def endCode : Dialect → List Instruction
  | .associative => [.bare .depx]
  | .imperative => []

/-- The instructions that store the value on top into a variable behind subscripts. -/
def storeInstructions (cls : Option Nat) (x : Symbol) (dims : Nat) : List Instruction :=
  [.binary .push (.block x.block) (.cls cls), .binary .push (.arrayDim dims) (.cls cls),
    .binary .push (.staticType x.type) (.cls cls),
    .ternary .pop (.ofSymbol x) (.cls x.classScope) (.arrayDim dims)]

theorem passes_storeInstructions (hs : s.session.CanEmit f.block) (x : Symbol) (dims : Nat) (span : Span) :
    ∃ k t, emitStore x dims span f s = .ok k t ∧
      Passes f s t (storeInstructions f.scope.classScope x dims) #[] := by
  obtain ⟨_, u, hblock, hu⟩ :=
    passes_emits (Mild.emits_emitWith (.binary .push (.block x.block) (.cls f.scope.classScope)) .nil none) hs
  obtain ⟨_, v, hdims, hv⟩ :=
    passes_emits (Mild.emits_emitWith (.binary .push (.arrayDim dims) (.cls f.scope.classScope)) .nil none)
      (hu.canEmit hs)
  obtain ⟨_, w, htype, hw⟩ :=
    passes_emits (Mild.emits_emitWith (.binary .push (.staticType x.type) (.cls f.scope.classScope)) .nil none)
      (hv.canEmit (hu.canEmit hs))
  have hpop : Mild.Emits (.ternary .pop (.ofSymbol x) (.cls x.classScope) (.arrayDim dims)) span
      (emitPopSymbol x dims span) :=
    Mild.Emits.onSwitch (c := fun s => x.isTemporary && !s.options.emitPopForTempBreakpoint)
      (Mild.emits_emitWith _ span none) (Mild.emits_emitStepping _ span [])
  obtain ⟨k, t, hstore, ht⟩ := passes_emits hpop (hw.canEmit (hv.canEmit (hu.canEmit hs)))
  refine ⟨k, t, ?_, ((hu.trans hv).trans hw).trans ht⟩
  unfold emitStore emitPushVarData emitPushType emitSilent classOperand
  simp only [run_bind, run_classScope, run_pure, hblock, hdims, htype, hstore]

theorem passes_emitStore (hs : s.session.CanEmit f.block) (x : Symbol) (span : Span) :
    ∃ k t, emitStore x 0 span f s = .ok k t ∧ Passes f s t (storeCode f.scope.classScope x) #[] :=
  passes_storeInstructions hs x 0 span

/-- A store into a plain name goes to the symbol that the name stands for. A name that is out of reach gets a new
one. -/
theorem assignTo_stores (hf : f.InCode) (hbound : ρ ≠ .unbound) (hs : Binds f ident.name ρ r x s.session)
    (hplain : ident.dims = []) (hrun : assignTo (.identifier ident) type f s = .ok path t) :
    t.session.CanEmit f.block ∧
      ∃ r' y w, t.session.symbol? r' = some y ∧ Passes f w t (storeCode f.scope.classScope y) #[] ∧
        (r' = r ↔ ρ = .found r) := by
  change (if ident.isThis then assignTo.invalid ident.span else storeIdentifier ident type) f s = .ok path t at hrun
  rw [run_ite] at hrun
  split at hrun
  · cases hrun
  obtain ⟨r', w, y, k, htarget, hy, hstore, -⟩ := storeIdentifier_steps hplain hrun
  have hcan : w.session.CanEmit f.block ∧ (r' = r ↔ ρ = .found r) := by
    unfold targetSymbol at htarget
    simp only [run_bind, hs.surveys.looksOut.run_sight, hs.resolve] at htarget
    cases hρ : ρ with
    | unbound => exact absurd hρ hbound
    | found r'' =>
      rw [hρ] at htarget
      cases htarget
      exact ⟨hs.surveys.looksOut.canEmit, by simp⟩
    | inaccessible r'' =>
      rw [hρ] at htarget
      obtain ⟨⟨⟩, v, hreport, hallocate⟩ := bind_eq_ok.mp htarget
      cases hreport
      have hreported := Binds.congr (a := s.session) (b := s.session.report
        (s.session.diagnostic .propertyInaccessible ("Property '" ++ ident.name ++ "' is inaccessible.") ident.span))
        ⟨rfl, rfl, rfl, rfl, rfl, rfl⟩ hs
      obtain ⟨r', z, u, hallocate', hentered⟩ := run_allocate_entered
        (s := { s with session := s.session.report (s.session.diagnostic .propertyInaccessible
          ("Property '" ++ ident.name ++ "' is inaccessible.") ident.span) })
        hf.own hreported.surveys.looksOut { name := ident.name, type := declaredType type }
      cases hallocate.symm.trans hallocate'
      refine ⟨(hentered.looksOut hreported.surveys.looksOut).canEmit, iff_of_false ?_ Resolution.noConfusion⟩
      rintro rfl
      cases hentered.symbol_before.symm.trans hreported.symbol
  obtain ⟨k', t', hstore', hpasses⟩ := passes_emitStore hcan.1 y ident.span
  cases hstore.symm.trans hstore'
  exact ⟨hpasses.canEmit hcan.1, r', y, w, (hpasses.names.symbol?_eq r').trans hy, hpasses, hcan.2⟩

/-! ## Statements -/

theorem passes_commit {n : GraphNode} (hn : n.block = f.block) (hrun : commit n f s = .ok () t) :
    Passes f s t [] #[] := by
  rw [run_commit] at hrun
  split at hrun
  · cases hrun
  obtain ⟨b, u, hb, hrun⟩ := bind_eq_ok.mp hrun
  rw [run_getBlock] at hb
  split at hb
  case h_2 => cases hb
  cases hb
  cases hrun
  let noted := s.session.note .trace .graph ("sealed " ++ n.text)
  let push (b : Block) : Block := { b with graph := b.graph.push { n with isSealed := true } }
  have hnoted : s.session.SameNames noted := ⟨rfl, rfl, rfl, rfl, rfl, rfl⟩
  have hstream : (noted.modifyBlock n.block push).stream f.block = noted.stream f.block :=
    Session.stream_modifyBlock (g := push) (fun _ => rfl) noted n.block f.block
  have hnames : noted.SameNames (noted.modifyBlock n.block push) :=
    Session.sameNames_modifyBlock (g := push) (fun _ => rfl) noted n.block
  refine ⟨⟨[], ?_, rfl⟩, fun id hid => ?_, (Array.append_empty).symm, hnoted.trans hnames, rfl, rfl, rfl⟩
  · rw [List.append_nil]
    exact congrArg Array.toList hstream
  · rw [← hn] at hid
    exact (Session.block?_modifyBlock noted n.block id push).trans (if_neg fun heq => hid heq.symm)

theorem passes_forM_commit {nodes : List GraphNode} (hn : ∀ n ∈ nodes, n.block = f.block)
    (hrun : nodes.forM commit f s = .ok () t) : Passes f s t [] #[] := by
  induction nodes generalizing s with
  | nil =>
    cases hrun
    exact .refl f _
  | cons n rest ih =>
    obtain ⟨⟨⟩, u, hfirst, hrun⟩ := bind_eq_ok.mp hrun
    have hrest := ih (fun m hm => hn m (List.mem_cons_of_mem n hm)) hrun
    exact (passes_commit (hn n (List.mem_cons_self ..)) hfirst).trans hrest

section
variable (hf : f.InCode) (hfirst : f.scope.classScope ≠ none → f.block ≠ 0) (hplace : r.owner = .block f.block)
  (hbound : ρ ≠ .unbound) (hreach : ∀ r', ρ = .inaccessible r' → ∀ s, (sightFrom f s).isNested = false)
  (hplain : ident.dims = []) (hs : Binds f ident.name ρ r x s.session)
include hf hfirst hplace hbound hreach hplain hs

/-- An assignment to a bound name ends with the store to what the name stands for. -/
theorem lowerUpdate_stores (hrun : lowerUpdate (.identifier ident) value span f s = .ok () t) :
    ∃ r' y w, t.session.symbol? r' = some y ∧
      Passes f w t (storeCode f.scope.classScope y ++ endCode .associative) #[] ∧ (r' = r ↔ ρ = .found r) := by
  have hosts : Hosts (Binds f ident.name ρ r x) 0 _ f := hosts_binds hf hfirst hplace hbound hreach
  obtain ⟨value', s', n, u, u', held, hs', hnode, hsession, hopen, hcommit, hheld, -⟩ :=
    lowerUpdate_last (Sparing.nextTemporary hosts _)
      (fun anchor _ _ _ _ => (Sparing.graphStatement (f := { f with anchor }) (hosts.flags rfl) _ _ _ _ _).spares)
      hs hrun
  have hblock := block_graphStatement hnode
  obtain ⟨v, type, w, w', path, p, q, _, _, k, message, hprobe, hvalue, -, hkeep, hstore, hdepx, rfl, -⟩ :=
    graphStatement_steps hnode
  obtain rfl := hkeep rfl
  have hprobed : Binds f ident.name ρ r x v.session :=
    (Sparing.probe hosts value').ok (by exact hosts.uid _ _ hs') hprobe
  have hvalued : Binds f ident.name ρ r x w'.session := Binds.congr (sameNames_expression hvalue) hprobed
  have htracked : Binds { f with isTracked := true } ident.name ρ r x w'.session :=
    Binds.site (f := f) (g := { f with isTracked := true }) rfl hvalued
  obtain ⟨hcan, r', y, w, hy, hstored, hiff⟩ :=
    assignTo_stores (f := { f with isTracked := true }) ⟨hf.own, hf.notVoid⟩ hbound htracked hplain hstore
  obtain ⟨k', q', hdepx', hended⟩ := passes_emits (f := f) (Mild.emits_emitWith (.bare .depx) .nil none) hcan
  cases hdepx.symm.trans hdepx'
  have hnoted : Passes f q u' [] #[] := .quiet hsession (congrArg GraphNode.isSealed hopen)
  have hcommitted : Passes f u' t [] #[] := by
    refine passes_forM_commit (fun m hm => ?_) hcommit
    rcases List.mem_append.mp hm with hm | hm
    · exact hheld hs.isWatching m hm
    · rw [List.mem_singleton.mp hm, hblock]
  have hrest : Passes f p t (endCode .associative) #[] := (hended.trans hnoted).trans hcommitted
  exact ⟨r', y, w, (hrest.names.symbol?_eq r').trans hy, (hstored.frame (f := f) rfl).trans hrest, hiff⟩

omit hfirst hplace hreach in
theorem lowerAssignment_stores (hrun : lowerAssignment (.identifier ident) value f s = .ok () t) :
    ∃ r' y w, t.session.symbol? r' = some y ∧
      Passes f w t (storeCode f.scope.classScope y ++ endCode .imperative) #[] ∧ (r' = r ↔ ρ = .found r) := by
  obtain ⟨⟨⟩, s₁, hforget, hrun⟩ := bind_eq_ok.mp hrun
  cases hforget
  obtain ⟨type, u, hvalue, hrun⟩ := bind_eq_ok.mp hrun
  obtain ⟨path, w, hstore, hrun⟩ := bind_eq_ok.mp hrun
  cases hrun
  have hvalued : Binds f ident.name ρ r x u.session := Binds.congr (sameNames_expression hvalue) hs
  obtain ⟨-, r', y, w, hy, hstored, hiff⟩ := assignTo_stores hf hbound hvalued hplain hstore
  refine ⟨r', y, w, hy, ?_, hiff⟩
  rw [endCode, List.append_nil]
  exact hstored

/-- An assignment to a bound name ends with the store to what the name stands for, and leaves the name bound. -/
theorem statement_stores {exits : Exits} (hrun : statement (.assign (.identifier ident) value span) f s = .ok exits t) :
    t.session.symbol? r = some x ∧ ∃ r' y w, t.session.symbol? r' = some y ∧
      Passes f w t (storeCode f.scope.classScope y ++ endCode f.dialect) #[] ∧ (r' = r ↔ ρ = .found r) := by
  have hosts : Hosts (Binds f ident.name ρ r x) 0 _ f := hosts_binds hf hfirst hplace hbound hreach
  rw [statement_eq] at hrun
  obtain ⟨g, s', hread, hrun⟩ := bind_eq_ok.mp hrun
  cases hread
  cases hdialect : f.dialect with
  | associative =>
    rw [hdialect] at hrun
    obtain ⟨⟨⟩, u, hupdate, hrun⟩ := bind_eq_ok.mp hrun
    cases hrun
    have hends := (Sparing.lowerUpdate hosts _ value span).ok hs hupdate
    exact ⟨hends.symbol, lowerUpdate_stores hf hfirst hplace hbound hreach hplain hs hupdate⟩
  | imperative =>
    rw [hdialect] at hrun
    obtain ⟨⟨⟩, u, hassign, hrun⟩ := bind_eq_ok.mp hrun
    cases hrun
    have hends := (Sparing.lowerAssignment hosts _ value).ok hs hassign
    exact ⟨hends.symbol, lowerAssignment_stores hf hbound hplain hs hassign⟩

end

/-! ## The first value -/

/-- What a name stands for behind the declaration of a variable. -/
def Sight.behindDeclaration (v : Sight) (name : String) (r : SymbolRef) : Resolution :=
  (v.memberFirst? name).getD (.found ((v.ownSymbol? name).getD r))

theorem Sight.memberFirst?_bound {v : Sight} (h : v.memberFirst? name = some ρ) :
    ρ ≠ .unbound ∧ v.isNested = false := by
  unfold memberFirst? at h
  split at h
  · cases h
  next hnested =>
  refine ⟨?_, by simpa using hnested⟩
  obtain ⟨cls, -, hclass⟩ := Option.bind_eq_some_iff.mp h
  rintro rfl
  split at hclass
  · cases hclass
  next hbound => exact hbound (Option.some.inj hclass)

theorem Sight.behindDeclaration_bound (v : Sight) (name : String) (r : SymbolRef) :
    v.behindDeclaration name r ≠ .unbound := by
  unfold behindDeclaration
  cases hmember : v.memberFirst? name with
  | none => exact Resolution.noConfusion
  | some ρ => exact (memberFirst?_bound hmember).1

theorem Sight.isNested_of_behindDeclaration {v : Sight} {r' : SymbolRef}
    (h : v.behindDeclaration name r = .inaccessible r') : v.isNested = false := by
  unfold behindDeclaration at h
  cases hmember : v.memberFirst? name with
  | none =>
    rw [hmember] at h
    cases h
  | some ρ => exact (memberFirst?_bound hmember).2

/-- A declaration binds its name. -/
theorem Entered.binds {d : Declaration} (hd : Entered f d r x s t) (hf : f.InCode) (hs : f.Surveys s.session)
    (hw : s.session.isWatching = false) (hfirst : f.scope.classScope ≠ none → f.block ≠ 0) :
    Binds f d.name ((sightFrom f s.session).behindDeclaration d.name r) r x t.session where
  isWatching := by
    obtain ⟨counters, hnames⟩ := hd.names
    exact hnames.isWatching.trans hw
  surveys := ⟨hd.looksOut hs.looksOut, hd.extends_session.indexed hs.indexed⟩
  resolve := hd.resolve_name hf hs hw hfirst
  symbol := hd.symbol

theorem lowerVariable_ok {v : Variable} (hf : f.InCode) (hlooks : f.LooksOut s.session) (hvalue : v.value = some value)
    (hrun : lowerVariable statement v f s = .ok () t) :
    ∃ type r x u w exits, resolveType v.type v.span f s = .ok type s ∧ allocate (.ofVariable v type) f s = .ok r u ∧
      Entered f (.ofVariable v type) r x s u ∧ u.session.SameNames w.session ∧
      statement (.assign (.identifier (.plain v.name v.span)) value v.span) f w = .ok exits t := by
  obtain ⟨type, s₁, htype, hrun⟩ := bind_eq_ok.mp hrun
  obtain ⟨r, u, hallocate, hrun⟩ := bind_eq_ok.mp hrun
  obtain ⟨x, u', hsymbol, hrun⟩ := bind_eq_ok.mp hrun
  obtain rfl : s₁ = s := by
    unfold resolveType at htype
    simp only [run_bind, run_getSession] at htype
    cases hindex : s.session.classes.indexOf? v.type.name <;> rw [hindex] at htype <;> cases htype
    rfl
  obtain ⟨r', y, u, hallocate', hentered⟩ := run_allocate_entered hf.own hlooks (.ofVariable v type)
  cases hallocate.symm.trans hallocate'
  rw [run_getSymbol, hentered.symbol] at hsymbol
  cases hsymbol
  obtain ⟨⟨⟩, w, hbox, hrun⟩ := bind_eq_ok.mp hrun
  have htame : Tame true false (emitHeapBox x) := .emitHeapBox x
  have hassigned : initializer? v = some (.assign (.identifier (.plain v.name v.span)) value v.span) := by
    unfold initializer?
    rw [hvalue]
    rfl
  rw [hassigned] at hrun
  obtain ⟨exits, t, hstatement, hrun⟩ := bind_eq_ok.mp hrun
  cases hrun
  exact ⟨type, r, x, _, w, exits, htype, hallocate, hentered, ((htame.keeps_ok hbox).inert rfl).1, hstatement⟩

/-- Where a variable with a first value is declared, the value is stored into the new symbol if and only if its scope
had not declared the name, and no member of the class goes before the variables of the name. -/
theorem initial_value_stored (hf : f.InCode) (hs : f.Surveys s.session) (hw : s.session.isWatching = false)
    (hfirst : f.scope.classScope ≠ none → f.block ≠ 0) {v : Variable} (hvalue : v.value = some value)
    (hrun : lowerVariable statement v f s = .ok () t) :
    ∃ type r x r' y w, resolveType v.type v.span f s = .ok type s ∧
      (∃ u, allocate (.ofVariable v type) f s = .ok r u) ∧ t.session.symbol? r = some x ∧
      x = { s.session.declared f (.ofVariable v type) with position := r.index } ∧ t.session.symbol? r' = some y ∧
      Passes f w t (storeCode f.scope.classScope y ++ endCode f.dialect) #[] ∧
      (r' = r ↔ (sightFrom f s.session).ownSymbol? v.name = none ∧
        (sightFrom f s.session).memberFirst? v.name = none) := by
  obtain ⟨type, r, x, u, w, exits, htype, hallocate, hentered, hnames, hstatement⟩ :=
    lowerVariable_ok hf hs.looksOut hvalue hrun
  have hlayout : x = { s.session.declared f (.ofVariable v type) with position := r.index } := by
    obtain ⟨hd, -, rfl, rfl⟩ := hentered.place
    rfl
  have hbinds := Binds.congr hnames (hentered.binds hf hs hw hfirst)
  have hplain : (Identifier.plain v.name v.span).dims = [] := rfl
  obtain ⟨hx, r', y, w', hy, hpasses, hstored⟩ :=
    statement_stores hf hfirst hentered.place_block (Sight.behindDeclaration_bound _ _ _)
      (fun _ hρ _ => Sight.isNested_of_behindDeclaration (v := sightFrom f s.session) hρ) hplain hbinds hstatement
  refine ⟨type, r, x, r', y, w', htype, ⟨u, hallocate⟩, hx, hlayout, hy, hpasses, ?_⟩
  refine Iff.trans ?_ (hentered.resolve_name_iff hf hs hw hfirst)
  rw [hstored, hentered.resolve_name hf hs hw hfirst]
  rfl

/-- A unit that reads `x` in its first statement and declares it later. -/
def aheadFrame : Frame := { block := 0, scope := .global, dialect := .associative, forward := ["y", "x"] }

def emptyState : State := { session := ((Session.new {}).compile [] .associative).2 }

/-- The declaration `x : int = 1`. -/
def oneVariable : Variable :=
  { name := "x", type := ⟨"int", 0⟩, value := some (.literal .int "1" .nil), isStatic := false, access := .isPublic
    region := .stack, span := .nil }

/-- At the beginning of the unit nothing has been declared, so that the variable gets its first value. -/
theorem first_value_of_new_name :
    let t := ending (lowerVariable statement oneVariable aheadFrame emptyState)
    ∃ x w, t.session.symbol? ⟨.block 0, 0⟩ = some x ∧ x.name = "x" ∧ x.type = .primitive .int ∧
      Passes aheadFrame w t (storeCode none x ++ [.bare .depx]) #[] := by
  intro t
  have hlooks : aheadFrame.LooksOut emptyState.session := .of_global rfl (by decide +kernel)
  have hs : aheadFrame.Surveys emptyState.session :=
    ⟨hlooks, Session.Used.indexed (.compile [] .associative (.new {}))⟩
  obtain ⟨exits, u, hrun⟩ := ok_of_matches (m := lowerVariable statement oneVariable) (f := aheadFrame) (s := emptyState)
    (by decide +kernel)
  obtain ⟨type, r, x, r', y, w, htype, ⟨v, hallocate⟩, hx, hlayout, hy, hpasses, hiff⟩ :=
    initial_value_stored (f := aheadFrame) ⟨rfl, by decide⟩ hs rfl (by simp [aheadFrame, Scope.global]) rfl hrun
  obtain rfl : r' = r := hiff.mpr (by decide +kernel)
  obtain rfl := of_decide_eq_true (of_ok (p := fun type _ => decide (type = .primitive .int)) (by decide +kernel) htype)
  obtain rfl := of_decide_eq_true (of_ok (p := fun r _ => decide (r = ⟨.block 0, 0⟩)) (by decide +kernel) hallocate)
  obtain rfl := Option.some.inj (hx.symm.trans hy)
  have ht : t = u := congrArg ending hrun
  rw [ht]
  refine ⟨x, w, hx, ?_, ?_, hpasses⟩ <;> rw [hlayout] <;> rfl

/-- Looking ahead declares `x` for `y = x`, so that the first value of `x : int = 1` goes there and not to the
variable that is declared. -/
theorem first_value_redeclared :
    let bare (name : String) : Node := .identifier (.plain name .nil)
    let s := ending (statement (.assign (bare "y") (bare "x") .nil) aheadFrame emptyState)
    let t := ending (lowerVariable statement oneVariable aheadFrame s)
    (lowerVariable statement oneVariable aheadFrame s matches .ok _ _) = true ∧
      (allocate (.ofVariable oneVariable (.primitive .int)) aheadFrame s matches .ok ⟨.block 0, 2⟩ _) = true ∧
      (∀ x w, t.session.symbol? ⟨.block 0, 2⟩ = some x →
        ¬ Passes aheadFrame w t (storeCode none x ++ [.bare .depx]) #[]) ∧
      ∃ x, t.session.symbol? ⟨.block 0, 0⟩ = some x ∧
        storeCode none x ++ [.bare .depx] <:+ (t.session.stream 0).toList.map Instruction.unmarked := by
  intro bare s t
  have hdeclared : ((t.session.symbol? ⟨.block 0, 2⟩).all fun x =>
      decide (storeCode none x ++ [.bare .depx] <:+ (t.session.stream 0).toList.map Instruction.unmarked)) = false := by
    decide +kernel
  have hfirst : ((t.session.symbol? ⟨.block 0, 0⟩).any fun x =>
      decide (storeCode none x ++ [.bare .depx] <:+ (t.session.stream 0).toList.map Instruction.unmarked)) = true := by
    decide +kernel
  refine ⟨by decide +kernel, by decide +kernel, fun x w hx hpasses => ?_, ?_⟩
  · rw [hx, Option.all_some] at hdeclared
    exact of_decide_eq_false hdeclared hpasses.suffix
  · cases hx : t.session.symbol? ⟨.block 0, 0⟩ with
    | none =>
      rw [hx, Option.any_none] at hfirst
      cases hfirst
    | some x =>
      rw [hx, Option.any_some] at hfirst
      exact ⟨x, rfl, of_decide_eq_true hfirst⟩

end Diglot.Lowering
