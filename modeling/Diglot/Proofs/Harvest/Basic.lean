import Diglot.Proofs.Access.Basic
import Diglot.Proofs.Chains.Recorded

/-! # What lowering gathers

While an expression is lowered, the node of the statement gets an input for each chain in it, literal subscripts are
put behind what the first node that is held back reads, and code is emitted that accesses variables. A `Harvest`
says which paths, literals and variables may be gathered.

* `GraphNode.tacked`: the node with literals behind those that it shows last.
* `Enriched H s t`: from `s` to `t` the open nodes got no other paths and literals than those that may be gathered.
* `Gathered v H s t`: besides, no other variables were accessed, and nothing was declared.
* `Gathers v H m`: this holds of every run of `m` that ends well.
-/

set_option autoImplicit false

namespace Diglot

/-! ## Literals behind a node that is held back -/

namespace GraphNode

theorem onLast_onLast {α : Type} (f g : α → α) (l : List α) : onLast f (onLast g l) = onLast (f ∘ g) l := by
  induction l with
  | nil => rfl
  | cons a rest ih =>
    cases rest with
    | nil => rfl
    | cons b rest => cases rest <;> simp_all [onLast]

theorem onLast_id {α : Type} (l : List α) : onLast id l = l := by
  induction l with
  | nil => rfl
  | cons a rest ih =>
    cases rest with
    | nil => rfl
    | cons b rest => simpa [onLast] using ih

/-- The path with literals behind the subscripts of its last segment. -/
def tackedPath (read : List Segment) (p : Path) : Path := onLast (fun x => { x with dims := x.dims ++ read }) p

/-- The node with literals behind the subscripts of its last input, and behind those of what it writes. -/
def tacked (read written : List Segment) (n : GraphNode) : GraphNode :=
  { n with dependencies := onLast (tackedPath read) n.dependencies, dims := n.dims ++ written }

theorem tackedPath_nil : tackedPath [] = id := by
  have hsame : (fun x : Segment => { x with dims := x.dims ++ [] }) = id := by
    funext x
    cases x
    simp
  funext p
  rw [tackedPath, hsame, onLast_id, id]

theorem tacked_nil (n : GraphNode) : n.tacked [] [] = n := by
  simp [tacked, tackedPath_nil, onLast_id]

theorem tackedPath_tackedPath (l m : List Segment) : tackedPath m ∘ tackedPath l = tackedPath (l ++ m) := by
  funext p
  unfold tackedPath
  rw [Function.comp_apply, onLast_onLast]
  congr 1
  funext x
  simp

theorem tacked_tacked (n : GraphNode) (l m l' m' : List Segment) :
    (n.tacked l m).tacked l' m' = n.tacked (l ++ l') (m ++ m') := by
  simp only [tacked, onLast_onLast, tackedPath_tackedPath, List.append_assoc]

theorem foldl_addDim (l : List Segment) (n : GraphNode) : l.foldl addDim n = n.tacked [] l := by
  induction l generalizing n with
  | nil => exact n.tacked_nil.symm
  | cons d rest ih =>
    have hone : n.addDim d = n.tacked [] [d] := by simp [addDim, tacked, tackedPath_nil, onLast_id]
    rw [List.foldl_cons, ih, hone, tacked_tacked]
    rfl

theorem foldl_addDependencyDim (l : List Segment) (n : GraphNode) :
    l.foldl addDependencyDim n = n.tacked l [] := by
  induction l generalizing n with
  | nil => exact n.tacked_nil.symm
  | cons d rest ih =>
    have hone : n.addDependencyDim d = n.tacked [d] [] := by
      rw [tacked, List.append_nil]
      rfl
    rw [List.foldl_cons, ih, hone, tacked_tacked]
    rfl

/-- The node without what is gathered in it. -/
def outline (n : GraphNode) : GraphNode :=
  { n with dependencies := [], dims := [], isIndexing := false, firstCall := none }

end GraphNode

namespace Lowering

variable {α β : Type}

theorem onFirst_onFirst {γ : Type} (f g : γ → γ) (l : List γ) : onFirst f (onFirst g l) = onFirst (f ∘ g) l := by
  cases l <;> rfl

theorem onFirst_id {γ : Type} (l : List γ) : onFirst id l = l := by
  cases l <;> rfl

/-! ## What is gathered -/

/-- What may be gathered: paths as inputs, literals for the node that is held back first, and variables that
code accesses. -/
structure Harvest where
  path : Path → Prop
  literal : Segment → Prop
  symbol : SymbolRef → Prop

/-- The open nodes got no other paths and literals. -/
structure Enriched (H : Harvest) (s t : State) : Prop where
  pointers : t.pointers = s.pointers
  held : ∃ read written, (∀ l ∈ read, H.literal l) ∧ t.held = onFirst (GraphNode.tacked read written) s.held
  inputs : ∃ new, (∀ p ∈ new, H.path p) ∧ t.node.dependencies = s.node.dependencies ++ new
  nodup : s.node.dependencies.Nodup → t.node.dependencies.Nodup
  outline : t.node.outline = s.node.outline

/-- The instruction addresses no variable, or accesses a variable of the kind. -/
def Touches (s : Session) (E : SymbolRef → Prop) (i : Instruction) : Prop :=
  (∀ o ∈ i.operands, o.isVariable = false) ∨ ∃ r x, E r ∧ s.symbol? r = some x ∧ i.Accesses x

theorem not_all_touches (s : Session) (E : SymbolRef → Prop) : ¬ ∀ i, Touches s E i := by
  intro hall
  obtain hnone | ⟨r, x, -, -, haccess⟩ := hall (.unary .not (.var 0))
  · have := hnone (.var 0) (List.mem_singleton.mpr rfl)
    cases this
  · obtain h | h | h | h := haccess.opcode <;> cases h

/-- Nothing else was gathered, and nothing was declared. -/
structure Gathered (v : Sight) (H : Harvest) (s t : State) : Prop extends Enriched H s t where
  names : s.session.SameNames t.session
  code : Wrote (Touches v.session H.symbol) v.frame.block s.session t.session

section
variable {v : Sight} {H : Harvest} {s t u : State}

theorem Enriched.ofSame (hp : t.pointers = s.pointers) (hh : t.held = s.held) (hn : t.node = s.node) :
    Enriched H s t := by
  refine ⟨hp, ⟨[], [], nofun, ?_⟩, ⟨[], nofun, by simp [hn]⟩, fun h => hn ▸ h, by rw [hn]⟩
  rw [hh, funext GraphNode.tacked_nil]
  exact (onFirst_id s.held).symm

theorem Enriched.refl (H : Harvest) (s : State) : Enriched H s s := .ofSame rfl rfl rfl

theorem Enriched.trans (h : Enriched H s t) (h' : Enriched H t u) : Enriched H s u := by
  obtain ⟨read, written, hread, hheld⟩ := h.held
  obtain ⟨read', written', hread', hheld'⟩ := h'.held
  obtain ⟨new, hnew, hinputs⟩ := h.inputs
  obtain ⟨new', hnew', hinputs'⟩ := h'.inputs
  refine ⟨h'.pointers.trans h.pointers, ⟨read ++ read', written ++ written', ?_, ?_⟩, ⟨new ++ new', ?_, ?_⟩,
    fun hs => h'.nodup (h.nodup hs), h'.outline.trans h.outline⟩
  · exact fun l hl => (List.mem_append.mp hl).elim (hread l) (hread' l)
  · rw [hheld', hheld, onFirst_onFirst]
    congr 1
    funext n
    exact n.tacked_tacked read written read' written'
  · exact fun p hp => (List.mem_append.mp hp).elim (hnew p) (hnew' p)
  · rw [hinputs', hinputs, List.append_assoc]

/-- Only the session changed. -/
theorem Gathered.ofSession (hp : t.pointers = s.pointers) (hh : t.held = s.held) (hn : t.node = s.node)
    (hnames : s.session.SameNames t.session)
    (hcode : Wrote (Touches v.session H.symbol) v.frame.block s.session t.session) : Gathered v H s t :=
  ⟨.ofSame hp hh hn, hnames, hcode⟩

theorem Gathered.refl (v : Sight) (H : Harvest) (s : State) : Gathered v H s s :=
  .ofSession rfl rfl rfl (.refl _) (.ofSilent (.refl _))

theorem Gathered.trans (h : Gathered v H s t) (h' : Gathered v H t u) : Gathered v H s u :=
  ⟨h.toEnriched.trans h'.toEnriched, h.names.trans h'.names, h.code.trans h'.code⟩

end

/-- A run that ends well gathers nothing but what may be gathered. -/
def Gathers (v : Sight) (H : Harvest) (m : Lower α) : Prop :=
  ∀ b s a t, v.session.SameNames s.session → m { v.frame with isGuided := b } s = .ok a t → Gathered v H s t

namespace Gathers

variable {v : Sight} {H : Harvest}

/-! ## Putting steps together -/

theorem pure (a : α) : Gathers v H (Pure.pure a : Lower α) := by
  intro b s a' t _ hrun
  cases hrun
  exact .refl v H s

/-- What comes next may depend on how the first step was able to end. -/
theorem bindOk {m : Lower α} {k : α → Lower β} (hm : Gathers v H m)
    (hk : ∀ a, (∃ b s t, m { v.frame with isGuided := b } s = .ok a t) → Gathers v H (k a)) :
    Gathers v H (m >>= k) := by
  intro b s c u hs hrun
  obtain ⟨a, t, ht, hu⟩ := bind_eq_ok.mp hrun
  have hst := hm b s a t hs ht
  exact hst.trans (hk a ⟨b, s, t, ht⟩ b t c u (hs.trans hst.names) hu)

theorem bind {m : Lower α} {k : α → Lower β} (hm : Gathers v H m) (hk : ∀ a, Gathers v H (k a)) :
    Gathers v H (m >>= k) := bindOk hm fun a _ => hk a

/-- Steps that declare and record nothing, and emit instructions of a kind. -/
theorem ofInert {P : Instruction → Prop} {m : Lower α} (ht : Tame true false m) (hm : Composed false False P m)
    (hP : ∀ i, P i → Touches v.session H.symbol i) : Gathers v H m := by
  intro b s a t _ hrun
  have hkept := ht.keeps_ok hrun
  have hcode := ((hm { v.frame with isGuided := b } s nofun).mono hP).wrote (not_all_touches _ _)
  rw [hrun] at hcode
  exact .ofSession hkept.pointers (hkept.holds rfl) (hkept.inert rfl).2 (hkept.inert rfl).1 hcode

/-- Steps that besides address no variable. -/
theorem neutral {m : Lower α} (ht : Tame true false m) (hm : Composed false False Instruction.IsNeutral m) :
    Gathers v H m := by
  refine ofInert ht hm fun i hi => .inl fun o ho => ?_
  have hneutral := hi o ho
  simp only [Operand.isNeutral, Bool.and_eq_true, Bool.not_eq_true'] at hneutral
  exact hneutral.1

theorem after {m : Lower α} {k : α → Lower β} (ht : Tame true false m)
    (hm : Composed false False Instruction.IsNeutral m) (hk : ∀ a, Gathers v H (k a)) : Gathers v H (m >>= k) :=
  bind (neutral ht hm) hk

/-- Steps that access a variable which may be accessed. -/
theorem accesses {r : SymbolRef} {x : Symbol} {m : Lower α} (hr : H.symbol r) (hx : v.session.symbol? r = some x)
    (ht : Tame true false m) (hm : Composed false False (·.Accesses x) m) : Gathers v H m :=
  ofInert ht hm fun _ hi => .inr ⟨r, x, hr, hx, hi⟩

theorem throw (stop : Stop) : Gathers v H (MonadExcept.throw stop : Lower α) :=
  fun _ _ _ _ _ hrun => by cases hrun

theorem halt (issue : Issue) (message : String) (span : Span) :
    Gathers v H (Lowering.halt issue message span : Lower α) :=
  fun _ _ _ _ _ hrun => by cases hrun

theorem ite {c : Prop} [Decidable c] {m n : Lower α} (hm : Gathers v H m) (hn : Gathers v H n) :
    Gathers v H (if c then m else n) := by
  split
  · exact hm
  · exact hn

theorem onlyIf {c : Prop} [Decidable c] {m : Lower β} {k : Lower α} (hm : Gathers v H m) (hk : Gathers v H k) :
    Gathers v H (if c then m >>= fun _ => k else k) := ite (bind hm fun _ => hk) hk

theorem forM {l : List β} {k : β → Lower Unit} (h : ∀ a ∈ l, Gathers v H (k a)) : Gathers v H (l.forM k) := by
  induction l with
  | nil => exact pure ()
  | cons a rest ih =>
    refine bind (h a (List.mem_cons_self ..)) fun _ => ih fun b hb => ?_
    exact h b (List.mem_cons_of_mem a hb)

theorem withSession {k : Session → Lower α} (h : ∀ s, Gathers v H (k s)) : Gathers v H (getSession >>= k) :=
  fun b s => h s.session b s

theorem withFrame {k : Frame → Lower α} (h : ∀ b, Gathers v H (k { v.frame with isGuided := b })) :
    Gathers v H (MonadReader.read >>= k) := fun b => h b b

theorem withSymbol {r : SymbolRef} {k : Symbol → Lower α}
    (h : ∀ x, v.session.symbol? r = some x → Gathers v H (k x)) : Gathers v H (getSymbol r >>= k) := by
  intro b s a t hs hrun
  obtain ⟨x, u, hget, hrun⟩ := bind_eq_ok.mp hrun
  rw [run_getSymbol] at hget
  split at hget
  case h_2 => cases hget
  next y hy =>
  cases hget
  exact h x (by rw [← hs.symbol?_eq, hy]) b s a t hs hrun

/-- What a name stands for is the same all the time. -/
theorem withSight (hv : v.LooksAround) {k : Sight → Lower α}
    (h : ∀ b s, v.session.SameNames s → Gathers v H (k ⟨s, { v.frame with isGuided := b }, v.blocks⟩)) :
    Gathers v H (sight >>= k) := by
  intro b s a t hs hrun
  obtain ⟨w, u, hsight, hk⟩ := bind_eq_ok.mp hrun
  obtain ⟨rfl, hw, hblocks, -⟩ := sight_eq_ok.mp hsight
  have hsame : w.blocks = v.blocks := by
    rw [hs.enclosing?_eq] at hblocks
    rw [hv.blocks, hblocks]
    rfl
  rw [hw, hsame] at hk
  exact h b u.session hs b u a t hs hk

theorem unguided {m : Lower α} (h : Gathers v H m) : Gathers v H (unguided m) := fun _ => h false

theorem guidedCall {m : Lower α} (h : Gathers v H m) : Gathers v H (guidedCall m) := withSession fun _ _ => h _

/-! ## Recording -/

/-- A path that is recorded becomes an input, unless it is one already. -/
theorem recordRead {path : Path} (h : H.path path) (viaCall : Bool) : Gathers v H (recordRead path viaCall) := by
  intro b s a t _ hrun
  obtain ⟨-, rfl⟩ := recordRead_eq_ok.mp hrun
  split
  case isFalse => exact .refl v H s
  next hread =>
  have hnew : path ∉ s.node.dependencies := by
    intro hmem
    simp [GraphNode.lacks_eq_false.mpr (.inr hmem)] at hread
  have hsilent : s.session.Silent (s.session.note .trace .graph
      ("#" ++ toString s.node.uid ++ " depends on " ++ path.text)) := ⟨rfl, rfl, rfl, rfl, rfl, id⟩
  refine ⟨⟨rfl, (Enriched.refl H s).held, ⟨[path], ?_, rfl⟩, fun hs => ?_, rfl⟩, ⟨rfl, rfl, rfl, rfl, rfl, rfl⟩,
    .ofSilent hsilent⟩
  · exact fun p hp => List.mem_singleton.mp hp ▸ h
  · refine List.nodup_append.mpr ⟨hs, List.pairwise_singleton .., fun p hp q hq hpq => hnew ?_⟩
    rwa [← List.mem_singleton.mp hq, ← hpq]

theorem recordSplitDims {literals : List Segment} (written : Bool)
    (h : written = false → ∀ l ∈ literals, H.literal l) : Gathers v H (recordSplitDims literals written) := by
  refine withSession fun u => ite ?_ (pure ())
  intro b s a t _ hrun
  cases hrun
  have hkept := Gathered.refl v H s
  refine ⟨⟨rfl, ?_, hkept.inputs, id, rfl⟩, .refl _, hkept.code⟩
  cases written with
  | true =>
    refine ⟨[], literals, nofun, ?_⟩
    simp [funext (GraphNode.foldl_addDim literals)]
  | false =>
    refine ⟨literals, [], h rfl, ?_⟩
    simp [funext (GraphNode.foldl_addDependencyDim literals)]

end Gathers

end Lowering

end Diglot
