import Diglot.Proofs.Chains.Names
import Diglot.Proofs.Origins.Mentions
import Diglot.Proofs.Requests
import Diglot.Proofs.Spare.Session

/-! # Sources that do not make names up

A source that declares plain names only (`Node.DeclaresOnly`) leaves the names of made-up variables alone:
in all sessions that are reached by compiling such sources, whatever name is made up next belongs to no symbol
(`Session.serveAll_hasSpare`).

Names are made up while a chain is split and for values without a target. Behind such a step fewer names are
left (`Sparing.reserve`).
-/

set_option autoImplicit false

namespace Diglot

/-! ## What a tree declares -/

namespace Node

/-- The names that a statement declares by itself, if they stand for nothing yet. -/
def ownNames : Node → List String
  | .assign (.identifier ident) _ _ => [ident.name]
  | .varDecl v => [v.name]
  | .function fn => fn.params.map Parameter.name
  | .classDecl c => c.members.map Variable.name ++ c.methods.flatMap fun fn => fn.params.map Parameter.name
  | _ => []

/-- The tree declares the name somewhere. -/
inductive Declares (name : String) : Node → Prop where
  | own {n : Node} : name ∈ n.ownNames → Declares name n
  | part {n m : Node} : m ∈ n.parts → Declares name m → Declares name n

/-- All names that the tree declares are of a kind. -/
def DeclaresOnly (P : String → Prop) (n : Node) : Prop := ∀ name, n.Declares name → P name

variable {P : String → Prop} {n m : Node}

theorem DeclaresOnly.part (h : n.DeclaresOnly P) (hm : m ∈ n.parts) : m.DeclaresOnly P :=
  fun name hname => h name (.part hm hname)

theorem DeclaresOnly.own (h : n.DeclaresOnly P) {name : String} (hname : name ∈ n.ownNames) : P name :=
  h name (.own hname)

theorem declaresOnly_iff : n.DeclaresOnly P ↔ (∀ name ∈ n.ownNames, P name) ∧ ∀ m ∈ n.parts, m.DeclaresOnly P := by
  refine ⟨fun h => ⟨fun name hname => h.own hname, fun m hm => h.part hm⟩, fun ⟨hown, hparts⟩ name hname => ?_⟩
  cases hname with
  | own hname => exact hown name hname
  | part hm hname => exact hparts _ hm name hname

/-- An assignment of a value without statements declares its target alone. -/
theorem DeclaresOnly.assign {name : String} {value : Node} {span span' : Span} (hname : P name)
    (hvalue : value.DeclaresOnly P) :
    (Node.assign (.identifier (.plain name span)) value span').DeclaresOnly P := by
  refine declaresOnly_iff.mpr ⟨fun other hother => ?_, fun m hm => ?_⟩
  · rw [List.mem_singleton.mp hother]
    exact hname
  · rcases List.mem_cons.mp hm with rfl | hm
    · exact declaresOnly_iff.mpr ⟨nofun, nofun⟩
    · rw [List.mem_singleton.mp hm]
      exact hvalue

end Node

/-- The function takes parameters of plain names, and its body declares such names only. -/
structure Function.DeclaresOnly (P : String → Prop) (fn : Function) : Prop where
  params : ∀ p ∈ fn.params, P p.name
  body : ∀ n ∈ fn.body, n.DeclaresOnly P

namespace Lowering

section
variable {P : String → Prop}

theorem declaresOnly_function {fn : Function} (h : (Node.function fn).DeclaresOnly P) : fn.DeclaresOnly P :=
  ⟨fun _ hp => h.own (List.mem_map_of_mem hp), fun _ hn => h.part hn⟩

theorem declaresOnly_method {c : ClassDecl} {fn : Function} (h : (Node.classDecl c).DeclaresOnly P)
    (hfn : fn ∈ c.methods) : fn.DeclaresOnly P := by
  refine ⟨fun p hp => h.own ?_, fun n hn => h.part ?_⟩
  · exact List.mem_append_right _ (List.mem_flatMap.mpr ⟨fn, hfn, List.mem_map_of_mem hp⟩)
  · exact List.mem_append_right _ (List.mem_flatMap.mpr ⟨fn, hfn, hn⟩)

theorem declaresOnly_withInitializers {fn : Function} (h : fn.DeclaresOnly P) {assignments : List Node}
    (hfirst : ∀ n ∈ assignments, n.DeclaresOnly P) : (withInitializers assignments fn).DeclaresOnly P := by
  unfold withInitializers
  split
  · refine ⟨h.params, fun n hn => ?_⟩
    obtain hn | hn := List.mem_append.mp hn
    · exact hfirst n hn
    · exact h.body n hn
  · exact h

theorem declaresOnly_member {c : ClassDecl} {v : Variable} (h : (Node.classDecl c).DeclaresOnly P)
    (hv : v ∈ c.members) : P v.name := h.own (List.mem_append_left _ (List.mem_map_of_mem hv))

theorem declaresOnly_initializer {v : Variable} {assignment : Node} (hname : P v.name)
    (hvalue : ∀ value, v.value = some value → value.DeclaresOnly P) (ha : initializer? v = some assignment) :
    assignment.DeclaresOnly P := by
  obtain ⟨value, hv, rfl⟩ := Option.map_eq_some_iff.mp ha
  exact .assign hname (hvalue value hv)

theorem declaresOnly_initializers {c : ClassDecl} (h : (Node.classDecl c).DeclaresOnly P) (p : Variable → Bool)
    {n : Node} (hn : n ∈ (c.members.filter p).filterMap initializer?) : n.DeclaresOnly P := by
  obtain ⟨v, hv, ha⟩ := List.mem_filterMap.mp hn
  have hmember := (List.mem_filter.mp hv).1
  refine declaresOnly_initializer (declaresOnly_member h hmember) (fun value hvalue => h.part ?_) ha
  exact List.mem_append_left _ (List.mem_filterMap.mpr ⟨v, hmember, hvalue⟩)

end

/-! ## Making names up -/

/-- The frame reads ahead of plain names only. -/
def Frame.IsPlain (f : Frame) : Prop := ∀ name ∈ f.forward, IsPlainName name

theorem Frame.IsPlain.isSpent {f : Frame} (h : f.IsPlain) (k : Nat) : ∀ name ∈ f.forward, IsSpent k name :=
  fun name hname => (h name hname).isSpent k

theorem isPlain_unitFrame {unit : List Node} (h : ∀ n ∈ unit, n.DeclaresOnly IsPlainName) (block : Nat)
    (scope : Scope) (dialect : Dialect) : (unitFrame block scope dialect unit).IsPlain := by
  intro name hname
  cases dialect with
  | imperative => cases hname
  | associative =>
    obtain ⟨n, hn, hassigned⟩ := List.mem_filterMap.mp hname
    refine h n hn name (.own ?_)
    unfold Node.assignedName? at hassigned
    split at hassigned
    · split at hassigned
      · cases hassigned
      · cases hassigned
        exact List.mem_singleton_self _
    · cases hassigned
      exact List.mem_singleton_self _
    · cases hassigned

namespace Sparing

variable {α : Type} {k : Nat} {f : Frame}

/-- A name is made up, behind which fewer are left. -/
theorem reserve {w : Bool} {letters : String} {next : String → Lower α}
    (h : ∀ j, k ≤ j → Spares (Session.Unspent w (j + 1)) f (next (letters ++ toString j))) :
    Spares (Session.Unspent w k) f (Lowering.nextTemporary letters >>= next) := by
  intro s hs
  have hnext := h s.session.counters.temporaries hs.count
    { s with session := { s.session with
      counters := { s.session.counters with temporaries := s.session.counters.temporaries + 1 } } } hs.reserve
  exact ⟨hnext.1.le (Nat.le_succ_of_le hs.count), fun _ _ _ => trivial⟩

theorem factorsUnspent (hf : f.IsPlain) {target : Node} (htarget : ∀ ident, target = .identifier ident → IsSpent k ident.name)
    (span : Span) (factor : Node) (anchor : Option Nat) (rest : List Node) :
    Spares (Session.Unspent false k) f (Lowering.lowerFactors target span factor anchor rest) := by
  have hhold (j : Nat) (n : GraphNode) : Spares (Session.Unspent false j) f (hold n) := modifyState fun _ => rfl
  have hstatement (anchor : Option Nat) {j : Nat} (isLast : Bool) (factor : Node) :
      Spares (Session.Unspent false (j + 1)) f (MonadWithReader.withReader (fun f => { f with anchor })
        (Lowering.graphStatement (.identifier (.plain (temporaryName j) span)) factor span true isLast)) := by
    have hanchor : Frame.IsPlain { f with anchor } := hf
    refine withReader (statementSpent (hanchor.isSpent _) _ _ _ _ _ ?_).spares
    intro ident hident
    cases hident
    exact isSpent_temporaryName (Nat.lt_succ_self j)
  have hspent {j : Nat} (hj : k ≤ j) : ∀ ident, target = .identifier ident → IsSpent j ident.name :=
    fun ident hident i hi => htarget ident hident i (Nat.le_trans hj hi)
  induction rest generalizing k factor anchor with
  | nil =>
    refine reserve fun j hj => andThen (hstatement anchor true factor) fun _ => andThen (hhold _ _) fun _ => ?_
    have hlast := hspent (Nat.le_succ_of_le hj)
    exact andThen (statementSpent (hf.isSpent _) _ _ _ _ _ hlast).spares fun _ => hhold _ _
  | cons segment rest ih =>
    refine reserve fun j hj => andThen (hstatement anchor false factor) fun _ => andThen (hhold _ _) fun _ => ?_
    have hlast := hspent (Nat.le_succ_of_le hj)
    exact andThen (modifyState fun _ => rfl) fun _ => ih hlast _ _ fun hi => hspent (Nat.le_trans (Nat.le_succ_of_le hj) hi)

theorem splitUnspent (hf : f.IsPlain) {target : Node} (htarget : ∀ ident, target = .identifier ident → IsSpent k ident.name)
    (segments : List Node) (span : Span) : Spares (Session.Unspent false k) f (Lowering.splitChain target segments span) := by
  refine andThen sight fun v => ?_
  split
  · exact andThen (modifyState fun _ => rfl) fun _ => factorsUnspent hf htarget _ _ _ _
  · exact andThen (modifyState fun _ => rfl) fun _ => factorsUnspent hf htarget _ _ _ _
  · exact defect _

theorem updateUnspent (hf : f.IsPlain) {target : Node} (htarget : ∀ ident, target = .identifier ident → IsSpent k ident.name)
    (value : Node) (span : Span) : Spares (Session.Unspent false k) f (Lowering.lowerUpdate target value span) :=
  lowerUpdateWith (carries_unspent k f) _ _ _ (fun segments => splitUnspent hf htarget segments span)
    (statementSpent (hf.isSpent k) _ _ _ _ _ htarget)

theorem unnamedUnspent (hf : f.IsPlain) (node : Node) :
    Spares (Session.Unspent false k) f (Lowering.lowerUnnamed node) := by
  refine reserve fun j hj => updateUnspent hf (fun ident hident => ?_) _ _
  cases hident
  exact isSpent_of_letter (String.toList_append ..) (by decide) _

/-! ## Declarations -/

/-- Arguments have the names of the parameters that they are resolved from. -/
theorem resolveNames (params : List Parameter) :
    Sparing (Session.Unspent false k) f (Lowering.resolveParams params)
      fun args => ∀ a ∈ args, ∃ p ∈ params, a.name = p.name := by
  induction params with
  | nil => exact pure fun _ ha => absurd ha List.not_mem_nil
  | cons p rest ih =>
    refine andThen (resolveType (endures_unspent false k f.block) _ _) fun type => bind ih fun args hargs => pure ?_
    intro a ha
    rcases List.mem_cons.mp ha with rfl | ha
    · exact ⟨p, List.mem_cons_self .., rfl⟩
    · obtain ⟨q, hq, hname⟩ := hargs a ha
      exact ⟨q, List.mem_cons_of_mem p hq, hname⟩

theorem addBlockUnspent (kind : BlockKind) (dialect : Dialect) (parent : Nat) :
    Spares (Session.Unspent false k) f (Lowering.addBlock kind dialect parent) := by
  refine withSession fun s _ => andThen (getBlock _) fun _ => andThen (modifySession fun t ht => ?_) fun _ => ?_
  · exact ht.addBlock kind dialect (some parent)
  · exact pure trivial

theorem modifyBlockUnspent (id : Nat) {g : Block → Block} (hg : ∀ b, (g b).symbols = b.symbols) :
    Spares (Session.Unspent false k) f (Lowering.modifyBlock id g) :=
  andThen (getBlock _) fun _ => modifySession fun _ ht => ht.modifyBlock hg id

theorem registerUnspent (p : Procedure) : Spares (Session.Unspent false k) f (Lowering.registerProcedure p) := by
  refine withFrame (withSession fun s _ => ?_)
  split
  · split
    · exact defect _
    · refine andThen (modifySession fun t ht => ?_) fun _ => pure trivial
      apply ht.modifyClass
      exact fun _ => rfl
  · exact andThen (modifySession fun t ht => ht.congr rfl rfl rfl (Nat.le_refl _)) fun _ => pure trivial

section
variable {statement : LowerStatement}
  (h : ∀ (k : Nat) (f : Frame) (n : Node), f.IsPlain → n.DeclaresOnly IsPlainName →
    Spares (Session.Unspent false k) f (statement n))
include h

theorem allUnspent (hf : f.IsPlain) {l : List Node} (hl : ∀ n ∈ l, n.DeclaresOnly IsPlainName) :
    Spares (Session.Unspent false k) f (Lowering.lowerAll statement l) := by
  induction l with
  | nil => exact pure trivial
  | cons n rest ih =>
    refine andThen (h k f n hf (hl n (List.mem_cons_self ..))) fun _ => ?_
    exact andThen (ih fun m hm => hl m (List.mem_cons_of_mem n hm)) fun _ => pure trivial

/-- A body declares its parameters and what its statements declare. -/
theorem unitUnspent (block : Nat) (scope : Scope) (dialect : Dialect) {unit : List Node}
    (hunit : ∀ n ∈ unit, n.DeclaresOnly IsPlainName) {params : List Argument}
    (hparams : ∀ p ∈ params, IsSpent k p.name) :
    Spares (Session.Unspent false k) f (Lowering.lowerUnit statement block scope dialect unit params) := by
  have hplain := isPlain_unitFrame hunit block scope dialect
  refine nested (andThen (forM fun p hp => ?_) fun _ => andThen (allUnspent h hplain hunit) fun _ => ?_)
  · exact andThen (allocateSpent (hparams p hp)) fun _ => pure trivial
  · exact closeUnit (endures_unspent false k _) unit

theorem blockUnspent (dialect : Dialect) {body : List Node} (hbody : ∀ n ∈ body, n.DeclaresOnly IsPlainName)
    (span : Span) : Spares (Session.Unspent false k) f (Lowering.lowerBlock statement dialect body span) := by
  refine withFrame (andThen (addBlockUnspent _ _ _) fun child => andThen (modifyBlockUnspent _ fun _ => rfl) fun _ => ?_)
  refine andThen (unitUnspent h _ _ _ hbody nofun) fun _ => andThen (getBlock _) fun _ => ?_
  exact andThen (emit (endures_unspent false k f.block) rfl _) fun _ => pure trivial

theorem functionUnspent {fn : Function} (hparams : ∀ p ∈ fn.params, IsSpent k p.name)
    (hbody : ∀ n ∈ fn.body, n.DeclaresOnly IsPlainName) (isGenerated : Bool) :
    Spares (Session.Unspent false k) f (Lowering.lowerFunction statement fn isGenerated) := by
  have hI := endures_unspent false k f.block
  refine andThen (resolveType hI _ _) fun returns => bind (resolveNames _) fun args hargs => ?_
  refine andThen (lowerAttributes hI _) fun attributes => andThen (registerUnspent _) fun r => withFrame ?_
  refine andThen (addBlockUnspent _ _ _) fun body => andThen (modifyBlockUnspent _ fun _ => rfl) fun _ => ?_
  have hprocedure (g : Procedure → Procedure) :
      Spares (Session.Unspent false k) f (Lowering.modifySession fun s => s.modifyProcedure r g) :=
    modifySession fun s hs => hs.modifyProcedure r g
  have hset (s : Session) (n : Nat) (hs : s.Unspent false k) : (s.setLocals n).Unspent false k :=
    hs.congr rfl rfl rfl (Nat.le_refl _)
  refine andThen (hprocedure _) fun _ => andThen (note hI _ _ _) fun _ => ?_
  refine andThen (countingLocals hset (unitUnspent h _ _ _ hbody fun a ha => ?_)) fun locals => ?_
  · obtain ⟨p, hp, hname⟩ := hargs a ha
    rw [hname]
    exact hparams p hp
  · exact andThen (getBlock _) fun _ => hprocedure _

theorem variableUnspent (hf : f.IsPlain) {v : Variable} (hv : (Node.varDecl v).DeclaresOnly IsPlainName) :
    Spares (Session.Unspent false k) f (Lowering.lowerVariable statement v) := by
  have hI := endures_unspent false k f.block
  have hname : IsPlainName v.name := hv.own (List.mem_singleton_self _)
  refine andThen (resolveType hI _ _) fun type => andThen (allocateSpent (hname.isSpent k)) fun r => ?_
  refine andThen (getSymbol r) fun symbol => andThen (emitHeapBox hI (fun _ i span hs => hs.emit _ i span) symbol) fun _ => ?_
  split
  · next assignment ha =>
    refine andThen (h k f _ hf (declaresOnly_initializer hname (fun value hvalue => hv.part ?_) ha)) fun _ => pure trivial
    exact Option.mem_toList.mpr hvalue
  · exact pure trivial

/-- Among what a class declares are its accessors. A setter has a parameter of its own name. -/
theorem classBodyUnspent {c : ClassDecl} (hc : (Node.classDecl c).DeclaresOnly IsPlainName) :
    Spares (Session.Unspent false k) f (Lowering.lowerClassBody statement c) := by
  have hmembers (members : List Variable) (hm : ∀ v ∈ members, IsPlainName v.name) :
      Spares (Session.Unspent false k) f (lowerMembers members) := by
    induction members with
    | nil => exact pure trivial
    | cons v rest ih =>
      have hname := hm v (List.mem_cons_self ..)
      refine andThen (resolveType (endures_unspent false k f.block) _ _) fun _ => ?_
      refine andThen (allocateSpent (hname.isSpent k)) fun _ => ih fun w hw => hm w (List.mem_cons_of_mem v hw)
  have hnone : ∀ p ∈ ([] : List Parameter), IsSpent k p.name := fun p hp => absurd hp List.not_mem_nil
  have hfirst (p : Variable → Bool) {n : Node} (hn : n ∈ (c.members.filter p).filterMap initializer?) :
      n.DeclaresOnly IsPlainName := declaresOnly_initializers hc p hn
  refine andThen (hmembers _ fun v hv => declaresOnly_member hc hv) fun _ => ?_
  refine andThen (forM fun v hv => ?_) fun _ => andThen (forM fun fn hfn => ?_) fun _ =>
    andThen (forM fun fn hfn => ?_) fun _ => ite ?_ (pure trivial)
  · have hname := declaresOnly_member hc (List.mem_filter.mp hv).1
    refine andThen (functionUnspent h hnone (fun n hn => ?_) _) fun _ => functionUnspent h (fun p hp => ?_) (fun n hn => ?_) _
    · rw [List.mem_singleton.mp hn]
      refine Node.declaresOnly_iff.mpr ⟨nofun, fun m hm => ?_⟩
      rw [List.mem_singleton.mp hm]
      exact Node.declaresOnly_iff.mpr ⟨nofun, nofun⟩
    · rw [List.mem_singleton.mp hp]
      have hletters : setterArgument.toList = '%' :: 'v' :: ['a', 'l', 'u', 'e'] := rfl
      exact isSpent_of_letter hletters (by decide) k
    · rw [List.mem_singleton.mp hn]
      exact .assign hname (Node.declaresOnly_iff.mpr ⟨nofun, nofun⟩)
  · unfold staticInitializer? at hfn
    split at hfn
    · cases hfn
    · rw [List.mem_singleton.mp hfn]
      exact functionUnspent h hnone (fun n hn => hfirst _ hn) _
  · have hmethod := declaresOnly_withInitializers (declaresOnly_method hc hfn) fun n hn =>
      declaresOnly_initializers hc (fun v => !v.isStatic) hn
    exact functionUnspent h (fun p hp => (hmethod.params p hp).isSpent k) hmethod.body _
  · exact functionUnspent h hnone (fun n hn => hfirst _ hn) _

theorem classUnspent {c : ClassDecl} (hc : (Node.classDecl c).DeclaresOnly IsPlainName) :
    Spares (Session.Unspent false k) f (Lowering.lowerClass statement c) := by
  have hI := endures_unspent false k f.block
  refine andThen (resolveBase hI c) fun base => andThen (lowerAttributes hI _) fun attributes => ?_
  intro s hs
  simp only [run_bind, run_getSession]
  cases happ : s.session.classes.append? { name := c.name, base, attributes } with
  | none => exact halt hI _ _ _ s hs
  | some classes =>
    have hbody := classBodyUnspent (f := { f with scope := .inClass s.session.classes.size }) (k := k) h hc
    exact andThen (note hI _ _ _) (fun _ => withReader (g := fun f => { f with scope := _ }) hbody)
      { s with session := { s.session with classes } } (hs.appendClass (fun _ => SymbolTable.lacks_empty _) happ)

/-! ## Statements -/

theorem associativeUnspent (hf : f.IsPlain) {n : Node} (hn : n.DeclaresOnly IsPlainName) :
    Spares (Session.Unspent false k) f (Lowering.associativeStatement statement n) := by
  have hI := endures_unspent false k f.block
  have hcontrol (span : Span) : Spares (Session.Unspent false k) f (haltOnControl (α := Unit) span) := halt hI _ _ _
  unfold Lowering.associativeStatement
  cases n with
  | assign target value span =>
    refine updateUnspent hf (fun ident hident => ?_) _ _
    subst hident
    exact (hn.own (List.mem_singleton_self ident.name)).isSpent k
  | ret => exact lowerReturn (carries_unspent k f) _ _
  | varDecl v => exact variableUnspent h hf hn
  | function fn =>
    have hfn := declaresOnly_function hn
    exact functionUnspent h (fun p hp => (hfn.params p hp).isSpent k) hfn.body false
  | classDecl c =>
    have hmay : Spares (Session.Unspent false k) f mayDeclareClass :=
      withFrame (andThen (getBlock _) fun _ => pure trivial)
    exact andThen hmay fun _ => ite (classUnspent h hn) (halt hI _ _ _)
  | block dialect body => exact blockUnspent h _ (fun m hm => hn.part hm) _
  | branch => exact hcontrol _
  | loop => exact hcontrol _
  | breakLoop => exact hcontrol _
  | continueLoop => exact hcontrol _
  | _ => exact unnamedUnspent hf _

theorem imperativeUnspent (hf : f.IsPlain) {n : Node} (hn : n.DeclaresOnly IsPlainName) :
    Spares (Session.Unspent false k) f (Lowering.imperativeStatement statement n) := by
  have hI := endures_unspent false k f.block
  have hcarries := carries_unspent k f
  have hplain {m : Lower Unit} (hm : Spares (Session.Unspent false k) f m) : Spares (Session.Unspent false k) f (plain m) :=
    andThen hm fun _ => pure trivial
  have hpatch (pending : List Nat) (target : Nat) : Spares (Session.Unspent false k) f (patchAll pending target) :=
    forM fun p _ => patch hcarries p target
  unfold Lowering.imperativeStatement
  cases n with
  | assign target value span =>
    refine hplain (andThen (modifyState fun _ => rfl) fun _ => andThen (expression _ hI) fun type => ?_)
    refine andThen (assignSpent target type fun ident hident => ?_) fun _ => pure trivial
    subst hident
    exact (hn.own (List.mem_singleton_self ident.name)).isSpent k
  | ret => exact hplain (returnStatement hI _ _)
  | branch condition body otherwise span =>
    have hbody : ∀ m ∈ body, m.DeclaresOnly IsPlainName :=
      fun m hm => hn.part (List.mem_cons_of_mem _ (List.mem_append_left _ hm))
    have hotherwise : ∀ m ∈ otherwise, m.DeclaresOnly IsPlainName :=
      fun m hm => hn.part (List.mem_cons_of_mem _ (List.mem_append_right _ hm))
    refine andThen (lowerCondition hI _ _) fun _ => ite ?_ ?_
    · refine andThen (emitStepping hI rfl _ _) fun _ => andThen (allUnspent h hf hbody) fun _ => ?_
      exact andThen pc fun _ => andThen (patch hcarries _ _) fun _ => pure trivial
    · refine andThen pc fun _ => andThen (emitCjmp hI _ _ _) fun _ => andThen (allUnspent h hf hbody) fun _ => ?_
      refine andThen (emitStepping hI rfl _ _) fun _ => andThen pc fun _ => andThen (patch hcarries _ _) fun _ => ?_
      refine andThen (allUnspent h hf hotherwise) fun _ => andThen pc fun _ => ?_
      exact andThen (patch hcarries _ _) fun _ => pure trivial
  | loop condition body span =>
    have hloop : Frame.IsPlain { f with inLoop := true } := hf
    have hbody := allUnspent h (k := k) hloop fun m hm => hn.part (List.mem_cons_of_mem _ hm)
    refine hplain (andThen pc fun _ => andThen (lowerCondition hI _ _) fun _ => andThen pc fun _ => ?_)
    refine andThen (emitCjmp hI _ _ _) fun _ => andThen (withReader hbody) fun _ => ?_
    refine andThen (hpatch _ _) fun _ => andThen (emitStepping hI rfl _ _) fun _ => andThen pc fun _ => ?_
    exact andThen (patch hcarries _ _) fun _ => hpatch _ _
  | breakLoop => exact lowerExit hI _ _ _
  | continueLoop => exact lowerExit hI _ _ _
  | varDecl v => exact hplain (variableUnspent h hf hn)
  | block dialect body => exact hplain (blockUnspent h _ (fun m hm => hn.part hm) _)
  | function fn =>
    have hfn := declaresOnly_function hn
    exact hplain (functionUnspent h (fun p hp => (hfn.params p hp).isSpent k) hfn.body false)
  | classDecl => exact halt hI _ _ _
  | _ => exact hplain (lowerDiscarded hI _)

end

/-- Statements that declare plain names leave the names unspent that are made up behind them. -/
theorem statementUnspent (k : Nat) (f : Frame) (n : Node) (hf : f.IsPlain) (hn : n.DeclaresOnly IsPlainName) :
    Spares (Session.Unspent false k) f (Lowering.statement n) := by
  have hwithin (depth k : Nat) (f : Frame) (n : Node) (hf : f.IsPlain) (hn : n.DeclaresOnly IsPlainName) :
      Spares (Session.Unspent false k) f (Lowering.statementWithin depth n) := by
    induction depth generalizing k f n with
    | zero => exact defect _
    | succ depth ih =>
      refine withFrame ?_
      cases f.dialect with
      | associative => exact andThen (associativeUnspent ih hf hn) fun _ => pure trivial
      | imperative => exact imperativeUnspent ih hf hn
  exact hwithin _ k f n hf hn

end Sparing

end Lowering

/-! ## Sessions -/

/-- The call brings in plain names only. -/
def Request.IsPlain : Request → Prop
  | .importSymbol name _ _ => IsPlainName name
  | .addClass c => ∀ k, c.symbols.Lacks (temporaryName k)
  | .compile unit _ => ∀ n ∈ unit, n.DeclaresOnly IsPlainName
  | _ => True

namespace Session

open Lowering

variable {s : Session}

section
variable {k : Nat} (h : s.Unspent false k)
include h

theorem Unspent.unitStart (dialect : Dialect) : (s.unitStart dialect).2.Unspent false k := by
  have hquiet : Session.Unspent false k { s with isWatching := false } :=
    h.congr h.isWatching.symm rfl rfl (Nat.le_refl _)
  have hopen : (Session.openUnit { s with isWatching := false } dialect).2.Unspent false k := by
    unfold Session.openUnit
    split
    · split
      · exact hquiet.addBlock .global dialect none
      · apply hquiet.modifyBlock
        exact fun _ => rfl
    · exact hquiet.addBlock .global dialect (some 0)
  exact hopen.congr rfl rfl rfl (Nat.le_refl _)

/-- A unit of plain names leaves the names unspent. -/
theorem Unspent.compile {unit : List Node} (hunit : ∀ n ∈ unit, n.DeclaresOnly IsPlainName) (dialect : Dialect) :
    (s.compile unit dialect).2.Unspent false k := by
  have hplain := isPlain_unitFrame hunit (s.unitStart dialect).1 .global dialect
  have hcode : Spares (Session.Unspent false k) (unitFrame (s.unitStart dialect).1 .global dialect unit)
      (lowerCode unit) :=
    Sparing.andThen (Sparing.allUnspent Sparing.statementUnspent hplain hunit) fun _ =>
      Sparing.closeUnit (endures_unspent false k _) unit
  have hend := (hcode { session := (s.unitStart dialect).2 } (h.unitStart dialect)).1
  rw [compile_eq]
  cases hrun : lowerCode unit _ _ <;> rw [hrun] at hend <;> exact hend

/-- A watch expression declares a variable with a made-up name of another kind. -/
theorem Unspent.watchExpression (id : Nat) (node : Node) : (s.watchExpression id node).2.Unspent false k := by
  cases hb : s.block? id with
  | none =>
    unfold Session.watchExpression
    rw [hb]
    exact h
  | some b =>
    have hI := endures_unspent true k (s.watchSite id b).block
    have hwatch : Spares (Session.Unspent true k) (s.watchSite id b) (lowerWatch node) := by
      refine Sparing.andThen .pc fun entry => .andThen (.expression node hI) fun _ => .reserve fun j _ => ?_
      have hI := endures_unspent true (j + 1) (s.watchSite id b).block
      refine .andThen (.allocateSpent ?_) fun r => .andThen (.getSymbol r) fun x => ?_
      · exact isSpent_of_letter (String.toList_append ..) (by decide) _
      · exact .andThen (.emitSilent hI rfl _) fun _ => .andThen (.emit hI rfl _) fun _ => .pure trivial
    have hstart : Session.Unspent true k { s with isWatching := true } :=
      ⟨rfl, h.hasSpare.congr rfl rfl (Nat.le_refl _), h.count⟩
    have hend := (hwatch { session := { s with isWatching := true } } hstart).1
    rw [watchExpression_eq hb]
    cases hrun : lowerWatch node _ _ <;> rw [hrun] at hend <;>
      exact ⟨rfl, hend.hasSpare.congr rfl rfl (Nat.le_refl _), hend.count⟩

theorem Unspent.importSymbol {name : String} (hname : IsPlainName name) (type : Ty) (library : String) :
    (s.importSymbol name type library).2.Unspent false k := by
  have hstart : (if s.blocks.isEmpty then s.addBlock .global .associative none else s).Unspent false k := by
    split
    · exact h.addBlock _ _ _
    · exact h
  unfold Session.importSymbol
  generalize (if s.blocks.isEmpty then s.addBlock .global .associative none else s) = t at hstart ⊢
  have hcounted (globals : Nat) : Session.Unspent false k { t with counters := { t.counters with globals } } :=
    hstart.congr rfl rfl rfl (Nat.le_refl _)
  exact (hcounted _).enterLocal 0 (hname.isSpent k)

theorem Unspent.serve {request : Request} (hr : request.IsPlain) :
    (s.serve request).2.Unspent false k := by
  cases request with
  | setFile file => exact h.congr rfl rfl rfl (Nat.le_refl _)
  | setParsingModule on => exact h.congr rfl rfl rfl (Nat.le_refl _)
  | importSymbol name type library => exact h.importSymbol hr type library
  | addClass c =>
    unfold Session.serve Session.addClass
    dsimp only
    split
    · next happ => exact h.appendClass hr happ
    · exact h
  | addMethod cls p =>
    change (s.addMethod cls p).2.Unspent false k
    unfold Session.addMethod
    split
    · apply h.modifyClass
      exact fun _ => rfl
    · exact h
  | addProcedure p => exact h.congr rfl rfl rfl (Nat.le_refl _)
  | compile unit dialect => exact h.compile hr dialect
  | watchExpression id node => exact h.watchExpression id node

end

theorem unspent_new (options : Options) : (Session.new options).Unspent false 0 := by
  refine ⟨rfl, fun k _ => ⟨fun id hd hheader => ?_, fun i c hc => ?_⟩, Nat.zero_le _⟩
  · cases hheader
  · obtain ⟨p, -, rfl⟩ : ∃ p ∈ Primitive.all, ({ name := p.name, isPrimitive := true } : Class) = c := by
      have hmem := Array.mem_of_getElem? hc
      exact List.mem_map.mp (List.mem_toArray.mp hmem)
    exact SymbolTable.lacks_empty _

/-- Behind calls that bring in plain names only, no symbol has a name that is still to be made up. -/
theorem serveAll_hasSpare (options : Options) {requests : List Request} (h : ∀ r ∈ requests, r.IsPlain) :
    ((Session.new options).serveAll requests).2.HasSpare := by
  have hall (s : Session) (hs : s.Unspent false 0) : (s.serveAll requests).2.Unspent false 0 := by
    induction requests generalizing s with
    | nil => exact hs
    | cons request rest ih =>
      exact ih (fun r hr => h r (List.mem_cons_of_mem request hr)) _ (hs.serve (h request (List.mem_cons_self ..)))
  exact (hall _ (unspent_new options)).hasSpare

end Session

end Diglot
