import Diglot.Proofs.Split.Shape

/-! # Orderly statements agree

From parallel sessions an orderly statement finishes in both, or halts in both at the same issue
(`Agrees.statement`), and what it leaves is parallel again, be its chains split or not. The walk over the
statements goes by the depth of the tree.
-/

set_option autoImplicit false

namespace Diglot

open Lowering

namespace Session.Parallel

variable {s t : Session}

theorem congr {u v : Session} (h : s.Parallel t) (hu : u.isWatching = s.isWatching)
    (hv : v.isWatching = t.isWatching) (hshape : u.shape = s.shape) (hshape' : v.shape = t.shape) :
    u.Parallel v :=
  ⟨hu.trans h.left, hv.trans h.right, hshape.trans (h.shape.trans hshape'.symm)⟩

theorem size_blocks (h : s.Parallel t) : s.blocks.size = t.blocks.size := by
  rw [← s.length_blocks_shape, h.shape, t.length_blocks_shape]

theorem indexOf? (h : s.Parallel t) (name : String) : s.classes.indexOf? name = t.classes.indexOf? name := by
  rw [s.indexOf?_eq_shape, h.shape, t.indexOf?_eq_shape]

theorem isConstructor (h : s.Parallel t) (r : ProcRef) :
    (s.procedure? r).map Procedure.isConstructor = (t.procedure? r).map Procedure.isConstructor := by
  rw [s.isConstructor_eq_shape, h.shape, t.isConstructor_eq_shape]

theorem nextProcedure (h : s.Parallel t) (scope : Scope) : s.nextProcedure scope = t.nextProcedure scope := by
  rw [s.nextProcedure_eq_shape, h.shape, t.nextProcedure_eq_shape]

theorem addBlock (h : s.Parallel t) (kind : BlockKind) (dialect : Dialect) (parent : Option Nat) :
    (s.addBlock kind dialect parent).Parallel (t.addBlock kind dialect parent) := by
  have hwatching (u : Session) : (u.addBlock kind dialect parent).isWatching = u.isWatching := by
    cases parent <;> rfl
  refine ⟨(hwatching s).trans h.left, (hwatching t).trans h.right, ?_⟩
  rw [s.shape_addBlock, h.shape, t.shape_addBlock]

theorem register (h : s.Parallel t) (scope : Scope) {p q : Procedure}
    (hpq : p.isConstructor = q.isConstructor) : (s.register scope p).Parallel (t.register scope q) := by
  have hwatching (u : Session) (p : Procedure) : (u.register scope p).isWatching = u.isWatching := by
    unfold Session.register
    split <;> rfl
  refine ⟨(hwatching s p).trans h.left, (hwatching t q).trans h.right, ?_⟩
  rw [s.shape_register, h.shape, hpq, t.shape_register]

end Session.Parallel

/-! ## Code that a class does not write down -/

theorem Variable.isOrderly_initializer {v : Variable} (hv : v.isOrderly = true) {n : Node}
    (hn : initializer? v = some n) : n.isOrderly = true := by
  rw [Variable.isOrderly_eq] at hv
  unfold initializer? at hn
  cases hvalue : v.value with
  | none =>
    rw [hvalue] at hn
    cases hn
  | some value =>
    rw [hvalue] at hn hv
    cases hn
    exact hv

theorem Variable.areOrderly_initializers {members : List Variable} (h : Variable.areOrderly members = true)
    (p : Variable → Bool) : Node.areOrderly ((members.filter p).filterMap initializer?) = true := by
  rw [Variable.areOrderly_iff] at h
  rw [Node.areOrderly_iff]
  intro n hn
  obtain ⟨v, hv, hn⟩ := List.mem_filterMap.mp hn
  exact isOrderly_initializer (h v (List.mem_filter.mp hv).1) hn

theorem Function.isOrderly_withInitializers {assignments : List Node} {fn : Function}
    (h : Node.areOrderly assignments = true) (hfn : fn.isOrderly = true) :
    (withInitializers assignments fn).isOrderly = true := by
  unfold withInitializers
  split
  · rw [Function.isOrderly_eq] at hfn ⊢
    exact Node.areOrderly_append h hfn
  · exact hfn

namespace Lowering

variable {α β γ : Type} {f : Frame}

namespace Keeps

theorem halt (issue : Issue) (message : String) (span : Span) :
    Keeps f (Lowering.halt issue message span : Lower α) :=
  fun σ => .halt (Session.endures_hasShape σ f.block) issue message span

theorem ofHosts {m : Lower α}
    (h : ∀ {I : Session → Prop}, Hosts I 0 (fun _ => True) f → Spares I f m) : Keeps f m :=
  fun σ => h (hosts_hasShape σ f)

theorem ofEndures {m : Lower α} (h : ∀ {I : Session → Prop}, Endures I 0 f.block → Spares I f m) :
    Keeps f m := fun σ => h (Session.endures_hasShape σ f.block)

theorem modifyBlock {g : Block → Block} (hg : ∀ b, (g b).kind = b.kind) (id : Nat) :
    Keeps f (modifyBlock id g) := by
  intro σ
  refine .andThen (.getBlock _) fun _ => .modifySession fun s hs => ?_
  exact hs.congr rfl (s.shape_modifyBlock hg id)

theorem modifyProcedure {g : Procedure → Procedure} (hg : ∀ p, (g p).isConstructor = p.isConstructor)
    (r : ProcRef) : Keeps f (modifySession fun s => s.modifyProcedure r g) := by
  intro σ
  refine .modifySession fun s hs => ?_
  exact hs.congr (Session.isWatching_modifyProcedure s r g) (s.shape_modifyProcedure hg r)

end Keeps

namespace Agrees

/-! ## Steps that read the shape -/

theorem halt (issue : Issue) (message : String) (span : Span) :
    Agrees f (Lowering.halt issue message span : Lower α) (Lowering.halt issue message span : Lower α) :=
  self (.halt issue message span) ⟨_, .halt issue message span⟩

theorem getBlock (id : Nat) : Agrees f (getBlock id) (getBlock id) :=
  self (fun _ => .getBlock id) ⟨_, .getBlock id⟩

/-- What is known of a block is its kind. -/
theorem withBlock {id : Nat} {k l : Block → Lower γ} (h : ∀ b c, b.kind = c.kind → Agrees f (k b) (l c)) :
    Agrees f (Lowering.getBlock id >>= k) (Lowering.getBlock id >>= l) := by
  intro s t hst
  have hkind : s.session.kind? id = t.session.kind? id := by
    rw [s.session.kind?_eq_shape, hst.shape, t.session.kind?_eq_shape]
  rw [run_bind, run_bind, run_getBlock, run_getBlock]
  unfold Session.kind? at hkind
  revert hkind
  cases s.session.block? id with
  | none => exact fun _ => .left
  | some b =>
    cases t.session.block? id with
    | none => exact fun hkind => by cases hkind
    | some c => exact fun hkind => h b c (Option.some.inj hkind) s t hst

theorem withAdded {kind : BlockKind} {dialect : Dialect} {parent : Nat} {k l : Nat → Lower γ}
    (h : ∀ id, Agrees f (k id) (l id)) :
    Agrees f (addBlock kind dialect parent >>= k) (addBlock kind dialect parent >>= l) := by
  have hadd : Agrees f (Lowering.modifySession fun s => s.addBlock kind dialect (some parent))
      (Lowering.modifySession fun s => s.addBlock kind dialect (some parent)) :=
    fun s t hst => .finished (hst.addBlock kind dialect (some parent))
  unfold addBlock
  simp only [bind_assoc, pure_bind]
  refine withSession fun s t hst => bind (getBlock parent) fun _ _ => bind hadd fun _ _ => ?_
  rw [hst.size_blocks]
  exact h _

theorem withRegistered {p q : Procedure} (hpq : p.isConstructor = q.isConstructor)
    {k l : ProcRef → Lower γ} (h : ∀ r, Agrees f (k r) (l r)) :
    Agrees f (registerProcedure p >>= k) (registerProcedure q >>= l) := by
  intro s t hst
  rw [run_bind, run_bind]
  obtain ⟨_, hp⟩ | ⟨d, hp⟩ := registerProcedure_cases p f s
  · obtain ⟨_, hq⟩ | ⟨e, hq⟩ := registerProcedure_cases q f t
    · rw [hp, hq, hst.nextProcedure]
      exact h _ _ _ (hst.register f.scope hpq)
    · rw [hp, hq]
      exact .right
  · rw [hp]
    exact .left

theorem nested {g : Frame} {m n : Lower α} (h : Agrees g m n) : Agrees f (nested g m) (nested g n) := by
  intro s t hst
  have hrun := h { session := s.session } { session := t.session } hst
  rw [run_nested, run_nested]
  generalize m g _ = r at hrun ⊢
  generalize n g _ = r' at hrun ⊢
  cases hrun with
  | finished hst' => exact .finished hst'
  | halted hissue hst' => exact .halted hissue hst'
  | left => exact .left
  | right => exact .right

theorem countingLocals {m n : Lower Unit} (h : Agrees f m n) :
    Agrees f (countingLocals m) (countingLocals n) := by
  intro s t hst
  have hrun := h { s with session := s.session.setLocals 0 } { t with session := t.session.setLocals 0 }
    (hst.congr rfl rfl rfl rfl)
  rw [run_countingLocals, run_countingLocals]
  generalize m f _ = r at hrun ⊢
  generalize n f _ = r' at hrun ⊢
  cases hrun with
  | finished hst' => exact .finished (hst'.congr rfl rfl rfl rfl)
  | halted hissue hst' => exact .halted hissue (hst'.congr rfl rfl rfl rfl)
  | left => exact .left
  | right => exact .right

/-! ## Headers of declarations -/

theorem resolveType (type : TypeName) (span : Span) :
    Agrees f (resolveType type span) (resolveType type span) := by
  refine withSession fun s t hst => ?_
  rw [hst.indexOf?]
  split
  · exact pure _ _
  · exact halt _ _ _

theorem resolveParams (params : List Parameter) :
    Agrees f (resolveParams params) (resolveParams params) := by
  induction params with
  | nil => exact pure _ _
  | cons p rest ih => exact bind (resolveType _ _) fun _ _ => bind ih fun _ _ => pure _ _

theorem lowerAttributes (attributes : List Call) :
    Agrees f (lowerAttributes attributes) (lowerAttributes attributes) := by
  apply self (.ofEndures fun hI => .lowerAttributes hI attributes)
  refine ⟨none, ?_⟩
  induction attributes with
  | nil => exact .pure _
  | cons a rest ih =>
    refine .andThen .getSession fun s => ?_
    split
    · exact .andThen ih fun _ => .pure _
    · exact .andThen (.report _ _ _) fun _ => ih

theorem resolveBase (c : ClassDecl) : Agrees f (resolveBase c) (resolveBase c) := by
  unfold Lowering.resolveBase
  split
  · exact pure _ _
  · refine withSession fun s t hst => ?_
    rw [hst.indexOf?]
    split
    · exact pure _ _
    · exact halt _ _ _

/-! ## Returning -/

theorem pc : Agrees f pc pc := ofOutcome (fun _ => .pc) (fun _ => .pc) .pc .pc

theorem returnStatement {value : Option Node} (h : Node.isOrderly? value = true) (span : Span) :
    Agrees f (returnStatement value span) (returnStatement value span) := by
  have hrest (p q : Option Procedure) : Agrees f (finishReturn value span p) (finishReturn value span q) := by
    have hvalue : Agrees f (lowerReturned value span) (lowerReturned value span) :=
      self (.ofHosts fun hf => .lowerReturned hf.endures value span) (Outcome.exists_lowerReturned h span)
    have hcheck (type type' : Ty) : Agrees f (checkReturned p type span) (checkReturned q type' span) :=
      ofOutcome (.ofHosts fun hf => .checkReturned hf.endures p type span)
        (.ofHosts fun hf => .checkReturned hf.endures q type' span) (.checkReturned _ _ _) (.checkReturned _ _ _)
    have hresult : Agrees f (emitResult span) (emitResult span) :=
      self (.ofEndures fun hI => .emitResult hI span) ⟨_, .emitResult span⟩
    refine bind pc fun _ _ => bind hvalue fun _ _ => bind pc fun _ _ => ?_
    refine bind (fun s t hst => .finished hst) fun _ _ => bind (hcheck _ _) fun _ _ => ?_
    exact bind hresult fun _ _ => pure _ _
  unfold Lowering.returnStatement currentProcedure?
  simp only [bind_assoc, pure_bind]
  refine withSession fun s t hst => withFrame ?_
  have hflag : (f.scope.procedure.bind s.procedure?).map Procedure.isConstructor =
      (f.scope.procedure.bind t.procedure?).map Procedure.isConstructor := by
    cases f.scope.procedure with
    | none => rfl
    | some r => exact hst.isConstructor r
  revert hflag
  cases f.scope.procedure.bind s.procedure? with
  | none =>
    cases f.scope.procedure.bind t.procedure? with
    | none => exact fun _ => hrest none none
    | some q => exact fun hflag => by cases hflag
  | some p =>
    cases f.scope.procedure.bind t.procedure? with
    | none => exact fun hflag => by cases hflag
    | some q =>
      intro hflag
      have hsame : p.isConstructor = q.isConstructor := Option.some.inj hflag
      dsimp only
      rw [hsame]
      refine ite (bind ?_ fun _ _ => hrest _ _) (hrest _ _)
      exact ofOutcome (.halt _ _ _) (.halt _ _ _) (.halt _ _ _) (.halt _ _ _)

theorem commit (n m : GraphNode) : Agrees f (commit n) (commit m) := by
  have hkeeps (n : GraphNode) : Keeps f (Lowering.commit n) := by
    intro σ
    refine .onlyIf (.defect _) (.andThen (.note (Session.endures_hasShape σ f.block) _ _ _) fun _ => ?_)
    refine Keeps.modifyBlock ?_ n.block σ
    exact fun _ => rfl
  exact ofOutcome (hkeeps n) (hkeeps m) (.commit n) (.commit m)

theorem lowerReturn {value : Option Node} (h : Node.isOrderly? value = true) (span : Span) :
    Agrees f (lowerReturn value span) (lowerReturn value span) := by
  have hfresh : Agrees f (freshNode false) (freshNode false) :=
    self (.ofHosts fun hf => .freshNode hf.toCarries false) ⟨_, .freshNode false⟩
  have htracking (a b : GraphNode) :
      Agrees f (tracking a (Lowering.returnStatement value span))
        (tracking b (Lowering.returnStatement value span)) := by
    refine bind (fun s t hst => .finished hst) fun _ _ => ?_
    refine bind (withReader (returnStatement h span)) fun _ _ => ?_
    exact fun s t hst => .finished hst
  refine bind hfresh fun a b => bind (htracking a b) fun p q => ?_
  exact bind (fun s t hst => .finished hst) fun _ _ => commit _ _

/-! ## Declarations -/

section
variable {statement : LowerStatement}
  (h : ∀ n f, n.isOrderly = true → Agrees f (statement n) (statement n))
include h

theorem lowerAll {l : List Node} (hl : Node.areOrderly l = true) :
    Agrees f (lowerAll statement l) (lowerAll statement l) := by
  induction l with
  | nil => exact pure _ _
  | cons n rest ih =>
    simp only [Node.areOrderly, Bool.and_eq_true] at hl
    exact bind (h n f hl.1) fun _ _ => bind (ih hl.2) fun _ _ => pure _ _

theorem lowerUnit {unit : List Node} (hunit : Node.areOrderly unit = true) (block : Nat) (scope : Scope)
    (dialect : Dialect) (params params' : List Argument) :
    Agrees f (lowerUnit statement block scope dialect unit params)
      (lowerUnit statement block scope dialect unit params') := by
  apply nested
  have hdeclare (params : List Argument) :
      Keeps (unitFrame block scope dialect unit) (declareParams params) ∧ Outcome (declareParams params) none := by
    refine ⟨fun σ => .forM fun p _ => ?_, .forM fun p _ => ?_⟩
    · exact .andThen (.allocate_hasShape σ _) fun _ => .pure trivial
    · exact .andThen (.allocate _) fun _ => .pure _
  have hclose : Agrees (unitFrame block scope dialect unit) (closeUnit unit) (closeUnit unit) :=
    self (.ofHosts fun hf => .closeUnit hf.endures unit) ⟨_, .closeUnit unit⟩
  refine bind (ofOutcome (hdeclare params).1 (hdeclare params').1 (hdeclare params).2 (hdeclare params').2) ?_
  exact fun _ _ => bind (lowerAll h hunit) fun _ _ => hclose

theorem lowerBlock {body : List Node} (hbody : Node.areOrderly body = true) (dialect : Dialect)
    (span : Span) :
    Agrees f (lowerBlock statement dialect body span) (lowerBlock statement dialect body span) := by
  have hemit {i j : Instruction} (hi : i.opcode.isAlloc = false) (hj : j.opcode.isAlloc = false) :
      Agrees f (emit i span) (emit j span) :=
    ofOutcome (.ofEndures fun hI => .emit hI hi span) (.ofEndures fun hI => .emit hI hj span) (.emit i span)
      (.emit j span)
  refine withFrame (withAdded fun child => bind ?_ fun _ _ => ?_)
  · refine self (.modifyBlock ?_ child) ⟨_, .modifyBlock _ _⟩
    exact fun _ => rfl
  · refine bind (lowerUnit h hbody _ _ _ _ _) fun _ _ => bind (getBlock child) fun _ _ => ?_
    exact bind (hemit rfl rfl) fun _ _ => pure _ _

theorem lowerBody {fn : Function} (hfn : fn.isOrderly = true) {p q : Procedure}
    (hpq : p.isConstructor = q.isConstructor) :
    Agrees f (lowerBody statement fn p) (lowerBody statement fn q) := by
  rw [Function.isOrderly_eq] at hfn
  have hopen (r : ProcRef) (body : Nat) :
      Agrees f (modifySession fun s => s.modifyProcedure r fun p => { p with block := some body })
        (modifySession fun s => s.modifyProcedure r fun p => { p with block := some body }) := by
    apply self (.modifyProcedure ?_ r) ⟨_, .modifySession _⟩
    exact fun _ => rfl
  have hclose (r : ProcRef) (entry entry' : Option Nat) (locals locals' : Nat) :
      Agrees f (modifySession fun s => s.modifyProcedure r fun p => { p with entry, locals })
        (modifySession fun s => s.modifyProcedure r fun p => { p with entry := entry', locals := locals' }) := by
    apply ofOutcome (.modifyProcedure ?_ r) (.modifyProcedure ?_ r) (.modifySession _) (.modifySession _)
    · exact fun _ => rfl
    · exact fun _ => rfl
  have hbelongs (r : ProcRef) (body : Nat) :
      Agrees f (modifyBlock body fun b => { b with procedure := some r })
        (modifyBlock body fun b => { b with procedure := some r }) := by
    apply self (.modifyBlock ?_ body) ⟨_, .modifyBlock _ _⟩
    exact fun _ => rfl
  have hnote (message : String) : Agrees f (note .debug .code message) (note .debug .code message) :=
    self (.ofEndures fun hI => .note hI _ _ _) ⟨_, .note _ _ _⟩
  unfold Lowering.lowerBody
  refine withRegistered hpq fun r => withFrame (withAdded fun body => bind (hbelongs r body) fun _ _ => ?_)
  refine bind (hopen r body) fun _ _ => bind (hnote _) fun _ _ => ?_
  refine bind (countingLocals (lowerUnit h hfn _ _ _ _ _)) fun _ _ => bind (getBlock body) fun _ _ => ?_
  exact hclose r _ _ _ _

theorem lowerFunction {fn : Function} (hfn : fn.isOrderly = true) (isGenerated : Bool) :
    Agrees f (lowerFunction statement fn isGenerated) (lowerFunction statement fn isGenerated) := by
  rw [lowerFunction_eq]
  refine bind (resolveType _ _) fun _ _ => bind (resolveParams _) fun _ _ => ?_
  exact bind (lowerAttributes _) fun _ _ => lowerBody h hfn rfl

omit h in
theorem allocate (d e : Declaration) : Agrees f (allocate d) (allocate e) :=
  ofOutcome (fun σ => .allocate_hasShape σ d) (fun σ => .allocate_hasShape σ e) (.allocate d)
    (.allocate e)

theorem lowerVariable {v : Variable} (hv : v.isOrderly = true) :
    Agrees f (lowerVariable statement v) (lowerVariable statement v) := by
  have hsymbol (r r' : SymbolRef) : Agrees f (getSymbol r) (getSymbol r') :=
    ofOutcome (fun _ => .getSymbol r) (fun _ => .getSymbol r') (.getSymbol r) (.getSymbol r')
  have hkeeps (x : Symbol) : Keeps f (emitHeapBox x) := fun σ =>
    .emitHeapBox (Session.endures_hasShape σ f.block) (fun _ i span hs => hs.emit _ i span) x
  have hbox (x y : Symbol) : Agrees f (emitHeapBox x) (emitHeapBox y) :=
    ofOutcome (hkeeps x) (hkeeps y) (.emitHeapBox x) (.emitHeapBox y)
  refine bind (resolveType _ _) fun _ _ => bind (allocate _ _) fun _ _ => ?_
  refine bind (hsymbol _ _) fun _ _ => bind (hbox _ _) fun _ _ => ?_
  cases hassign : initializer? v with
  | none => exact pure _ _
  | some n => exact bind (h n f (Variable.isOrderly_initializer hv hassign)) fun _ _ => pure _ _

theorem lowerClassBody {c : ClassDecl} (hc : c.isOrderly = true) :
    Agrees f (lowerClassBody statement c) (lowerClassBody statement c) := by
  rw [ClassDecl.isOrderly_eq, Bool.and_eq_true] at hc
  obtain ⟨hmembers, hmethods⟩ := hc
  have hinit := Variable.areOrderly_initializers hmembers
  have hlay (members : List Variable) : Agrees f (lowerMembers members) (lowerMembers members) := by
    induction members with
    | nil => exact pure _ _
    | cons v rest ih => exact bind (resolveType _ _) fun _ _ => bind (allocate _ _) fun _ _ => ih
  refine bind (hlay _) fun _ _ => bind (forM fun v _ => ?_) fun _ _ => ?_
  · have hgetter : (getterOf v).isOrderly = true := rfl
    have hsetter : (setterOf v).isOrderly = true := rfl
    exact bind (lowerFunction h hgetter true) fun _ _ => lowerFunction h hsetter true
  refine bind (forM fun fn hfn => ?_) fun _ _ => bind (forM fun fn hfn => ?_) fun _ _ => ?_
  · unfold staticInitializer? at hfn
    split at hfn
    · exact absurd hfn (List.not_mem_nil)
    · rw [List.mem_singleton.mp hfn]
      apply lowerFunction h
      exact (Function.isOrderly_eq _).trans (hinit _)
  · apply lowerFunction h
    exact Function.isOrderly_withInitializers (hinit _) (Function.areOrderly_iff.mp hmethods fn hfn)
  · refine ite (lowerFunction h ?_ true) (pure _ _)
    exact (Function.isOrderly_eq _).trans (hinit _)

theorem lowerClass {c : ClassDecl} (hc : c.isOrderly = true) :
    Agrees f (lowerClass statement c) (lowerClass statement c) := by
  refine bind (resolveBase c) fun base base' => bind (lowerAttributes _) fun attributes attributes' => ?_
  intro s t hst
  have htaken : (s.session.classes.append? { name := c.name, base, attributes }).isSome =
      (t.session.classes.append? { name := c.name, base := base', attributes := attributes' }).isSome := by
    unfold ClassTable.append?
    rw [hst.indexOf?]
    split <;> rfl
  have hsize : s.session.classes.size = t.session.classes.size := by
    rw [← s.session.size_classes_shape, hst.shape, t.session.size_classes_shape]
  have hbody (id : Nat) : Agrees f (do
      note .debug .code ("class '" ++ c.name ++ "' is #" ++ toString id)
      MonadWithReader.withReader (fun f : Frame => { f with scope := .inClass id })
        (Lowering.lowerClassBody statement c)) (do
      note .debug .code ("class '" ++ c.name ++ "' is #" ++ toString id)
      MonadWithReader.withReader (fun f : Frame => { f with scope := .inClass id })
        (Lowering.lowerClassBody statement c)) := by
    refine bind (self (.ofEndures fun hI => .note hI _ _ _) ⟨_, .note _ _ _⟩) fun _ _ => ?_
    exact withReader (lowerClassBody h hc)
  simp only [run_bind, run_getSession]
  revert htaken
  cases hs : s.session.classes.append? { name := c.name, base, attributes } with
  | none =>
    cases ht : t.session.classes.append? { name := c.name, base := base', attributes := attributes' } with
    | none => exact fun _ => halt .duplicateClass _ _ s t hst
    | some classes' => exact fun htaken => by cases htaken
  | some classes =>
    cases ht : t.session.classes.append? { name := c.name, base := base', attributes := attributes' } with
    | none => exact fun htaken => by cases htaken
    | some classes' =>
      intro _
      rw [hsize]
      apply hbody t.session.classes.size { s with session := { s.session with classes } }
        { t with session := { t.session with classes := classes' } }
      refine ⟨hst.left, hst.right, ?_⟩
      rw [Session.shape_append? hs, Session.shape_append? ht, hst.shape]
      rfl

theorem lowerTopLevelClass {c : ClassDecl} (hc : c.isOrderly = true) :
    Agrees f (lowerTopLevelClass statement c) (lowerTopLevelClass statement c) := by
  unfold Lowering.lowerTopLevelClass mayDeclareClass
  simp only [bind_assoc, pure_bind]
  refine withFrame (withBlock fun b b' hkind => ?_)
  rw [hkind]
  exact ite (lowerClass h hc) (halt _ _ _)

/-! ## Statements -/

theorem associativeStatement {n : Node} (hn : n.isOrderly = true) :
    Agrees f (associativeStatement statement n) (associativeStatement statement n) := by
  have hunnamed : Keeps f (lowerUnnamed n) := .ofHosts fun hf => .lowerUnnamed hf n
  have hcontrol (span : Span) :
      Agrees f (haltOnControl span : Lower Unit) (haltOnControl span : Lower Unit) := halt _ _ _
  unfold Lowering.associativeStatement
  cases n with
  | assign target value span =>
    simp only [Node.isOrderly, Bool.and_eq_true] at hn
    obtain ⟨p, hp⟩ := Outcome.exists_lowerUpdate hn.2
    obtain ⟨q, hq⟩ := Outcome.exists_assignTo hn.1
    exact self (.ofHosts fun hf => .lowerUpdate hf target value span) ⟨_, hp target q hq span⟩
  | ret => exact lowerReturn hn _
  | varDecl => exact lowerVariable h hn
  | function => exact lowerFunction h hn _
  | classDecl => exact lowerTopLevelClass h hn
  | block => exact lowerBlock h hn _ _
  | branch => exact hcontrol _
  | loop => exact hcontrol _
  | breakLoop => exact hcontrol _
  | continueLoop => exact hcontrol _
  | _ => exact self hunnamed (Outcome.exists_lowerUnnamed hn)

omit h in
theorem lowerCondition {condition : Node} (hcondition : condition.isOrderly = true) (span : Span) :
    Agrees f (lowerCondition condition span) (lowerCondition condition span) :=
  self (.ofEndures fun hI => .lowerCondition hI condition span)
    (Outcome.exists_lowerCondition hcondition span)

omit h in
theorem emitStepping {i j : Instruction} (hi : i.opcode.isAlloc = false) (hj : j.opcode.isAlloc = false)
    (span : Span) (steps steps' : List (Option Nat)) :
    Agrees f (emitStepping i span steps) (emitStepping j span steps') :=
  ofOutcome (.ofEndures fun hI => .emitStepping hI hi span steps)
    (.ofEndures fun hI => .emitStepping hI hj span steps') (.emitStepping _ _ _) (.emitStepping _ _ _)

omit h in
theorem emitCjmp (condition : Operand) (holds holds' : Nat) (span : Span) :
    Agrees f (emitCjmp condition holds span) (emitCjmp condition holds' span) :=
  ofOutcome (.ofEndures fun hI => .emitCjmp hI condition holds span)
    (.ofEndures fun hI => .emitCjmp hI condition holds' span) (.emitCjmp _ _ _) (.emitCjmp _ _ _)

omit h in
theorem patch (pending pending' target target' : Nat) :
    Agrees f (patch pending target) (patch pending' target') :=
  ofOutcome (.ofHosts fun hf => .patch hf.toCarries pending target) (.ofHosts fun hf => .patch hf.toCarries pending' target')
    (.patch _ _) (.patch _ _)

omit h in
/-- The two runs may have different numbers of jumps to patch. -/
theorem patchAll (pending pending' : List Nat) (target target' : Nat) :
    Agrees f (patchAll pending target) (patchAll pending' target') := by
  have hkeeps (pending : List Nat) (target : Nat) : Keeps f (Lowering.patchAll pending target) :=
    .ofHosts fun hf => .forM fun p _ => .patch hf.toCarries p target
  exact ofOutcome (hkeeps _ _) (hkeeps _ _) (.forM fun p _ => .patch p _) (.forM fun p _ => .patch p _)

omit h in
theorem lowerExit (keyword : String) (span : Span) (exits : Nat → Exits) :
    Agrees f (lowerExit keyword span exits) (lowerExit keyword span exits) := by
  have hjump : Agrees f (do return exits (← emitJmp none span)) (do return exits (← emitJmp none span)) :=
    bind (emitStepping rfl rfl _ _ _) fun _ _ => pure _ _
  exact withFrame (ite (bind (halt _ _ _) fun _ _ => hjump) hjump)

theorem lowerIf {body : List Node} (hbody : Node.areOrderly body = true) (span : Span) :
    Agrees f (lowerIf statement body span) (lowerIf statement body span) := by
  refine bind (emitStepping rfl rfl _ _ _) fun _ _ => bind (lowerAll h hbody) fun _ _ => ?_
  exact bind pc fun _ _ => bind (patch _ _ _ _) fun _ _ => pure _ _

theorem lowerIfElse {body otherwise : List Node} (hbody : Node.areOrderly body = true)
    (hotherwise : Node.areOrderly otherwise = true) (span : Span) :
    Agrees f (lowerIfElse statement body otherwise span) (lowerIfElse statement body otherwise span) := by
  refine bind pc fun _ _ => bind (emitCjmp _ _ _ _) fun _ _ => bind (lowerAll h hbody) fun _ _ => ?_
  refine bind (emitStepping rfl rfl _ _ _) fun _ _ => bind pc fun _ _ => bind (patch _ _ _ _) fun _ _ => ?_
  refine bind (lowerAll h hotherwise) fun _ _ => bind pc fun _ _ => bind (patch _ _ _ _) fun _ _ => ?_
  exact pure _ _

theorem lowerWhile {condition : Node} {body : List Node} (hcondition : condition.isOrderly = true)
    (hbody : Node.areOrderly body = true) (span : Span) :
    Agrees f (lowerWhile statement condition body span) (lowerWhile statement condition body span) := by
  refine bind pc fun _ _ => bind (lowerCondition hcondition _) fun _ _ => bind pc fun _ _ => ?_
  refine bind (emitCjmp _ _ _ _) fun _ _ => bind (withReader (lowerAll h hbody)) fun _ _ => ?_
  refine bind (patchAll _ _ _ _) fun _ _ => bind (emitStepping rfl rfl _ _ _) fun _ _ => bind pc fun _ _ => ?_
  exact bind (patch _ _ _ _) fun _ _ => patchAll _ _ _ _

theorem imperativeStatement {n : Node} (hn : n.isOrderly = true) :
    Agrees f (imperativeStatement statement n) (imperativeStatement statement n) := by
  have hplain {m : Lower Unit} (hm : Agrees f m m) : Agrees f (plain m) (plain m) :=
    bind hm fun _ _ => pure _ _
  have hdiscarded : Keeps f (lowerDiscarded n) := .ofEndures fun hI => .lowerDiscarded hI n
  unfold Lowering.imperativeStatement
  cases n with
  | assign target value span =>
    simp only [Node.isOrderly, Bool.and_eq_true] at hn
    apply hplain
    exact self (.ofHosts fun hf => .lowerAssignment hf target value)
      (Outcome.exists_lowerAssignment hn.1 hn.2)
  | ret => exact hplain (returnStatement hn _)
  | branch condition body otherwise span =>
    simp only [Node.isOrderly, Bool.and_eq_true] at hn
    obtain ⟨⟨hcondition, hbody⟩, hotherwise⟩ := hn
    apply bind (lowerCondition hcondition span)
    exact fun _ _ => ite (lowerIf h hbody span) (lowerIfElse h hbody hotherwise span)
  | loop condition body span =>
    simp only [Node.isOrderly, Bool.and_eq_true] at hn
    exact hplain (lowerWhile h hn.1 hn.2 span)
  | breakLoop => exact lowerExit _ _ _
  | continueLoop => exact lowerExit _ _ _
  | varDecl => exact hplain (lowerVariable h hn)
  | block => exact hplain (lowerBlock h hn _ _)
  | function => exact hplain (lowerFunction h hn _)
  | classDecl => exact halt _ _ _
  | _ => exact hplain (self hdiscarded (Outcome.exists_lowerDiscarded hn))

end

theorem statementWithin (depth : Nat) {n : Node} (hn : n.isOrderly = true) :
    Agrees f (statementWithin depth n) (statementWithin depth n) := by
  induction depth generalizing f n with
  | zero => exact defect _ _
  | succ depth ih =>
    refine withFrame ?_
    cases f.dialect with
    | associative => exact bind (associativeStatement (fun n f hn => ih hn) hn) fun _ _ => pure _ _
    | imperative => exact imperativeStatement (fun n f hn => ih hn) hn

/-- Orderly statements agree. -/
theorem lowerCode {unit : List Node} (hunit : Node.areOrderly unit = true) :
    Agrees f (lowerCode unit) (lowerCode unit) := by
  apply bind (lowerAll (fun n f hn => statementWithin n.weight hn) hunit)
  exact fun _ _ => self (.ofHosts fun hf => .closeUnit hf.endures unit) ⟨_, .closeUnit unit⟩

end Agrees

end Lowering

end Diglot
