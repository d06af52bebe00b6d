import Diglot.Proofs.Chains.Silent
import Diglot.Proofs.Paths.Written

/-! # Runs in step

A chain is lowered twice, as a whole and split. The two runs are abreast (`Abreast`) if what the second has
beside the first are made-up variables and the option to split, and both have reported, registered and called
the same. A step of the second run is in step with one of the first (`InStep`) if it finishes whenever that one
does, with a related value, and leaves the runs abreast.
-/

set_option autoImplicit false

namespace Diglot

open Lowering

/-- What `t` has beside `s` are made-up variables and the option to split chains. -/
structure Session.Level (s t : Session) : Prop where
  beside : s.Beside t
  options : { t.options with fullSsa := s.options.fullSsa } = s.options
  file : t.file = s.file
  lateVariables : t.lateVariables = s.lateVariables
  lateFunctions : t.lateFunctions = s.lateFunctions
  diagnostics : t.diagnostics = s.diagnostics

theorem Session.Level.congr {s s' t t' : State} (h : s.session.Level s'.session)
    (hs : Constant s t) (hs' : Constant s' t') (hst : Reticent s t) (hst' : Reticent s' t') :
    t.session.Level t'.session where
  beside := h.beside.congr hs.names hs'.names
  options := by
    rw [hst.options, hst'.options]
    exact h.options
  file := hst'.file.trans (h.file.trans hst.file.symm)
  lateVariables := hst'.lateVariables.trans (h.lateVariables.trans hst.lateVariables.symm)
  lateFunctions := hst'.lateFunctions.trans (h.lateFunctions.trans hst.lateFunctions.symm)
  diagnostics := hst'.diagnostics.trans (h.diagnostics.trans hst.diagnostics.symm)

namespace Lowering

variable {α β γ δ : Type} {f g : Frame} {s s' t t' : State} {anchor : Option Nat}

/-! ## Runs that are abreast -/

/-- The two runs have come equally far. The second one may name the anchor of a split chain. -/
structure Abreast (anchor : Option Nat) (f : Frame) (s s' : State) : Prop where
  level : s.session.Level s'.session
  callees : s'.session.callees f.block = s.session.callees f.block
  lastCallee : s'.lastCallee = s.lastCallee
  proceeds : f.Proceeds s
  isOpen : s'.node.isSealed = false
  noAnchor : f.anchor = none
  mayAnchor : (sightFrom f s.session).MayAnchor anchor

namespace Abreast

theorem right (h : Abreast anchor f s s') : ({ f with anchor } : Frame).Proceeds s' := by
  refine ⟨⟨?_, fun body hbody => ?_⟩, h.level.beside.isWatching.trans h.proceeds.isWatching, h.isOpen⟩
  · have hblocks := h.proceeds.looksOut.blocks
    rwa [← h.level.beside.enclosing?] at hblocks
  · have hblock := h.proceeds.looksOut.body body hbody
    rwa [← h.level.beside.block?_isSome] at hblock

theorem mayAnchor_congr {a b : Session} (h : a.SameNames b) (hanchor : (sightFrom f a).MayAnchor anchor) :
    (sightFrom f b).MayAnchor anchor := by
  intro name cls hsome hcls
  rw [Sight.resolve_sightFrom h]
  refine hanchor name cls hsome ?_
  have hclasses : (sightFrom f b).session.classes = (sightFrom f a).session.classes := h.classes
  rwa [← hclasses]

/-- The runs stay abreast if both have gone on in the same way. -/
theorem next (h : Abreast anchor f s s') (hs : Constant s t) (hs' : Constant s' t')
    (hlevel : t.session.Level t'.session) (hcallees : t'.session.callees f.block = t.session.callees f.block)
    (hlast : t'.lastCallee = t.lastCallee) : Abreast anchor f t t' :=
  ⟨hlevel, hcallees, hlast, h.proceeds.congr hs, hs'.isSealed.trans h.isOpen, h.noAnchor,
    mayAnchor_congr hs.names h.mayAnchor⟩

theorem unmoved (h : Abreast anchor f s s') (hs : Unmoved f.block s t) (hs' : Unmoved f.block s' t') :
    Abreast anchor f t t' :=
  h.next hs.constant hs'.constant (h.level.congr hs.constant hs'.constant hs.reticent hs'.reticent)
    (hs'.callees.trans (h.callees.trans hs.callees.symm))
    (hs'.reticent.lastCallee.trans (h.lastCallee.trans hs.reticent.lastCallee.symm))

/-- Of the frame only the place among blocks and procedures matters. -/
theorem site (h : Abreast anchor f s s') (hsite : g.site = f.site) (hanchor : g.anchor = f.anchor) :
    Abreast anchor g s s' := by
  have hproceeds := h.proceeds.site hsite
  obtain ⟨block, scope, dialect⟩ := f
  obtain ⟨block', scope', dialect'⟩ := g
  cases hsite
  exact ⟨h.level, h.callees, h.lastCallee, hproceeds, h.isOpen, hanchor.trans h.noAnchor, h.mayAnchor⟩

end Abreast

/-! ## Steps that are in step -/

/-- From runs that are abreast, the second step finishes whenever the first one does, and leaves the runs
abreast. -/
def InStep (anchor : Option Nat) (Q : α → β → Prop) (m : Lower α) (n : Lower β) : Prop :=
  ∀ f s s' a t, Abreast anchor f s s' → m f s = .ok a t →
    ∃ b t', n { f with anchor } s' = .ok b t' ∧ Q a b ∧ Abreast anchor f t t' ∧ Constant s t ∧ Constant s' t'

namespace InStep

variable {Q : α → β → Prop} {R : γ → δ → Prop} {m : Lower α} {n : Lower β}

theorem pure {a : α} {b : β} (h : Q a b) : InStep anchor Q (Pure.pure a) (Pure.pure b) := by
  intro f s s' a t hs hrun
  cases hrun
  exact ⟨b, s', rfl, h, hs, .refl s, .refl s'⟩

theorem conseq {Q' : α → β → Prop} (h : InStep anchor Q m n) (hQ : ∀ a b, Q a b → Q' a b) :
    InStep anchor Q' m n := by
  intro f s s' a t hs hrun
  obtain ⟨b, t', hrun', hab, ht⟩ := h f s s' a t hs hrun
  exact ⟨b, t', hrun', hQ a b hab, ht⟩

/-- The first step never finishes. -/
theorem stop (h : ∀ f s a t, m f s ≠ .ok a t) : InStep anchor Q m n :=
  fun f s _ a t _ hrun => absurd hrun (h f s a t)

theorem defect (d : Defect) : InStep anchor Q (Lowering.defect d : Lower α) n :=
  stop fun _ _ _ _ hrun => by cases hrun

theorem halt (issue : Issue) (message : String) (span : Span) :
    InStep anchor Q (Lowering.halt issue message span : Lower α) n :=
  stop fun _ _ _ _ hrun => by cases hrun

theorem bind {k : α → Lower γ} {l : β → Lower δ} (hm : InStep anchor Q m n)
    (hk : ∀ a b, Q a b → InStep anchor R (k a) (l b)) : InStep anchor R (m >>= k) (n >>= l) := by
  intro f s s' c u hs hrun
  obtain ⟨a, t, hm', hk'⟩ := bind_eq_ok.mp hrun
  obtain ⟨b, t', hn, hab, ht, hst, hst'⟩ := hm f s s' a t hs hm'
  obtain ⟨d, u', hl, hcd, hu, htu, htu'⟩ := hk a b hab f t t' c u ht hk'
  exact ⟨d, u', bind_eq_ok.mpr ⟨b, t', hn, hl⟩, hcd, hu, hst.trans htu, hst'.trans htu'⟩

/-- A silent step of the first run alone. -/
theorem bindLeft {k : γ → Lower α} {m : Lower γ} (hm : Silent m) (hk : ∀ a, InStep anchor Q (k a) n) :
    InStep anchor Q (m >>= k) n := by
  intro f s s' a u hs hrun
  obtain ⟨c, t, hm', hk'⟩ := bind_eq_ok.mp hrun
  have hst := hm.unmoved hs.proceeds hm'
  obtain ⟨b, u', hn, hab, hu, htu, htu'⟩ := hk c f t s' a u (hs.unmoved hst (.refl _ s')) hk'
  exact ⟨b, u', hn, hab, hu, hst.constant.trans htu, htu'⟩

/-- A silent step of the second run alone. -/
theorem bindRight {l : δ → Lower β} {n : Lower δ} (hn : Silent n) (hl : ∀ b, InStep anchor Q m (l b)) :
    InStep anchor Q m (n >>= l) := by
  intro f s s' a u hs hrun
  obtain ⟨d, t', hn', hst'⟩ := hn _ _ hs.right
  obtain ⟨b, u', hl', hab, hu, hsu, htu'⟩ := hl d f s t' a u (hs.unmoved (.refl _ s) hst') hrun
  exact ⟨b, u', bind_eq_ok.mpr ⟨d, t', hn', hl'⟩, hab, hu, hsu, hst'.constant.trans htu'⟩

theorem silent (hm : Silent m) (hn : Silent n) : InStep anchor (fun _ _ => True) m n := by
  intro f s s' a t hs hrun
  obtain ⟨b, t', hrun', hst'⟩ := hn _ _ hs.right
  have hst := hm.unmoved hs.proceeds hrun
  exact ⟨b, t', hrun', trivial, hs.unmoved hst hst', hst.constant, hst'.constant⟩

theorem ite {c : Prop} [Decidable c] {m' : Lower α} {n' : Lower β} (hm : InStep anchor Q m n)
    (hn : InStep anchor Q m' n') : InStep anchor Q (if c then m else m') (if c then n else n') := by
  split
  · exact hm
  · exact hn

theorem iteLeft {c : Prop} [Decidable c] {m' : Lower α} (hm : InStep anchor Q m n) (hm' : InStep anchor Q m' n) :
    InStep anchor Q (if c then m else m') n := by
  split
  · exact hm
  · exact hm'

theorem iteRight {c : Prop} [Decidable c] {n' : Lower β} (hn : InStep anchor Q m n) (hn' : InStep anchor Q m n') :
    InStep anchor Q m (if c then n else n') := by
  split
  · exact hn
  · exact hn'

theorem forM {l : List γ} {k k' : γ → Lower Unit}
    (h : ∀ a ∈ l, InStep anchor (fun _ _ => True) (k a) (k' a)) :
    InStep anchor (fun _ _ => True) (l.forM k) (l.forM k') := by
  induction l with
  | nil => exact pure trivial
  | cons a rest ih =>
    exact bind (h a (List.mem_cons_self ..)) fun _ _ _ => ih fun b hb => h b (List.mem_cons_of_mem a hb)

theorem withReader {k : Frame → Frame} (hsite : ∀ f, (k f).site = f.site) (hanchor : ∀ f, (k f).anchor = f.anchor)
    (hk : ∀ f, k { f with anchor } = { k f with anchor }) (h : InStep anchor Q m n) :
    InStep anchor Q (MonadWithReader.withReader k m : Lower α) (MonadWithReader.withReader k n) := by
  intro f s s' a t hs hrun
  obtain ⟨b, t', hrun', hab, ht, hconstant⟩ := h (k f) s s' a t (hs.site (hsite f) (hanchor f)) hrun
  refine ⟨b, t', ?_, hab, ht.site (hsite f).symm (hanchor f).symm, hconstant⟩
  rw [run_withReader, hk]
  exact hrun'

/-! ## Reading -/

theorem withFrame {k : Frame → Lower α} {l : Frame → Lower β}
    (h : ∀ f, InStep anchor Q (k f) (l { f with anchor })) :
    InStep anchor Q (MonadReader.read >>= k) (MonadReader.read >>= l) := fun f => h f f

theorem withSession {k : Session → Lower α} {l : Session → Lower β}
    (h : ∀ s t : Session, s.Level t → InStep anchor Q (k s) (l t)) :
    InStep anchor Q (getSession >>= k) (getSession >>= l) :=
  fun f s s' a t hs hrun => h s.session s'.session hs.level f s s' a t hs hrun

theorem classScope : InStep anchor Eq classScope classScope := withFrame fun _ => pure rfl

theorem classOperand : InStep anchor Eq classOperand classOperand :=
  bind classScope fun _ _ h => pure (by rw [h])

theorem withSight {k : Sight → Lower α} {l : Sight → Lower β}
    (h : ∀ (f : Frame) (s t : Session), s.Beside t → f.anchor = none → (sightFrom f s).MayAnchor anchor →
      InStep anchor Q (k (sightFrom f s)) (l (sightFrom { f with anchor } t))) :
    InStep anchor Q (sight >>= k) (sight >>= l) := by
  intro f s s' a t hs hrun
  rw [run_bind, hs.proceeds.looksOut.run_sight] at hrun
  obtain ⟨b, t', hrun', hab⟩ := h f s.session s'.session hs.level.beside hs.noAnchor hs.mayAnchor f s s' a t
    hs hrun
  refine ⟨b, t', ?_, hab⟩
  rw [run_bind, hs.right.looksOut.run_sight]
  exact hrun'

theorem getSymbol (r : SymbolRef) : InStep anchor Eq (getSymbol r) (getSymbol r) := by
  intro f s s' x t hs hrun
  rw [run_getSymbol] at hrun
  split at hrun
  · next y hy =>
    cases hrun
    refine ⟨x, s', ?_, rfl, hs, .refl s, .refl s'⟩
    rw [run_getSymbol, hs.level.beside.symbol? hy]
  · cases hrun

theorem guidesWanted : InStep anchor Eq guidesWanted guidesWanted :=
  withFrame fun _ => withSession fun _ _ hst => pure (by rw [← hst.options])

/-! ## What is compared -/

/-- Both sessions change in the same way, but not in what names stand for. -/
theorem change {k : Session → Session} (hk : ∀ s t : Session, s.Level t → (k s).Level (k t))
    (hsame : ∀ s, (k s).blocks = s.blocks ∧ (k s).isWatching = s.isWatching ∧ (k s).watch = s.watch)
    (hnames : ∀ s : Session, s.SameNames (k s)) (hcounters : ∀ s, (k s).counters = s.counters) :
    InStep anchor (fun _ _ => True) (modifySession k) (modifySession k) := by
  have hblock (s : Session) : (k s).block? = s.block? := by
    unfold Session.block?
    rw [(hsame s).1]
  have hnodes (s : Session) : (k s).nodes = s.nodes := by
    unfold Session.nodes
    rw [hblock]
  have hcallees (s : Session) (block : Nat) : (k s).callees block = s.callees block := by
    unfold Session.callees Session.stream
    rw [hblock, (hsame s).2.1, (hsame s).2.2]
  intro f s s' a t hs hrun
  cases hrun
  have hst : Constant s { s with session := k s.session } := .ofSession (hnames _) (hcounters _) (hnodes _)
  have hst' : Constant s' { s' with session := k s'.session } := .ofSession (hnames _) (hcounters _) (hnodes _)
  refine ⟨(), _, rfl, trivial, hs.next hst hst' (hk _ _ hs.level) ?_ hs.lastCallee, hst, hst'⟩
  dsimp only
  rw [hcallees, hcallees]
  exact hs.callees

theorem report (issue : Issue) (message : String) (span : Span) :
    InStep anchor (fun _ _ => True) (report issue message span) (report issue message span) := by
  refine change (k := fun s => s.report (s.diagnostic issue message span)) (fun s t h => ?_)
    (fun _ => ⟨rfl, rfl, rfl⟩) (fun _ => ⟨rfl, rfl, rfl, rfl, rfl, rfl⟩) fun _ => rfl
  refine ⟨h.beside.congr ⟨rfl, rfl, rfl, rfl, rfl, rfl⟩ ⟨rfl, rfl, rfl, rfl, rfl, rfl⟩, h.options, h.file,
    h.lateVariables, h.lateFunctions, ?_⟩
  change t.diagnostics.push _ = s.diagnostics.push _
  rw [h.diagnostics, Session.diagnostic, h.file]
  rfl

/-- Two calls of the same procedure. -/
theorem emits {i j : Instruction} {span span' : Span} {m n : Lower Nat} (hm : Mild.Emits i span m)
    (hn : Mild.Emits j span' n) (h : j.callee? = i.callee?) : InStep anchor (fun _ _ => True) m n := by
  intro f s s' a t hs hrun
  obtain ⟨a', u, hrun', hst, hreticent, hcallees⟩ := run_emits hm hs.proceeds.looksOut.canEmit
  rw [hrun] at hrun'
  cases hrun'
  obtain ⟨b, t', hrun', hst', hreticent', hcallees'⟩ := run_emits hn hs.right.looksOut.canEmit
  refine ⟨b, t', hrun', trivial, hs.next hst hst' (hs.level.congr hst hst' hreticent hreticent') ?_ ?_, hst, hst'⟩
  · exact hcallees'.trans (by rw [hcallees, hs.callees, h])
  · exact hreticent'.lastCallee.trans (hs.lastCallee.trans hreticent.lastCallee.symm)

/-- The same procedure was found to be called. -/
theorem setCallee (r : Option ProcRef) :
    InStep anchor (fun _ _ => True) (modify fun s : State => { s with lastCallee := r } : Lower Unit)
      (modify fun s => { s with lastCallee := r }) := by
  intro f s s' a t hs hrun
  cases hrun
  have hst (u : State) : Constant u { u with lastCallee := r } :=
    ⟨.refl _, rfl, rfl, rfl, rfl, rfl, fun _ h => h⟩
  exact ⟨(), _, rfl, trivial, hs.next (hst s) (hst s') hs.level hs.callees rfl, hst s, hst s'⟩

end InStep

end Lowering

end Diglot
