import Diglot.Proofs.Debug.Erasure
import Diglot.Proofs.Evolution.Steps

/-! # Steps below the level of statements

What lowers an expression, a store or the end of a unit opens no block, patches no jump and finishes no
dependency node. `Mild` says of such steps, in one judgement, what several results about whole runs
need of them.

* `State.bare` leaves out what only a debugger needs, and the segments that are remembered of a chain
  that is being split.
* `Kept inert s t`: between `s` and `t` no block lost code, got a node or changed its dialect, and no
  open node changed its identity. If `inert`, nothing was declared, and the open nodes are as before.
* `State.trimmed` leaves out those segments only.
* `Mild inert pushes m n`: `m` and `n` do the same but for what either of the two leaves out, whatever `m`
  does is kept in this sense, and `m` takes no code back; if `pushes`, it emits an instruction.
* `Tame inert pushes m`: the same of one step.
-/

set_option autoImplicit false

namespace Diglot

open Lowering

/-! ## What is kept -/

/-- The node without what changes while its statement is lowered. -/
def GraphNode.core (n : GraphNode) : GraphNode :=
  { uid := n.uid, block := n.block, startPc := n.startPc, endPc := n.endPc, isSealed := n.isSealed }

/-- The block keeps its code and its nodes. -/
structure Block.Still (b c : Block) : Prop where
  id : c.id = b.id
  dialect : c.dialect = b.dialect
  graph : c.graph = b.graph
  code : b.code.toList <+: c.code.toList

theorem Block.Still.refl (b : Block) : b.Still b := ⟨rfl, rfl, rfl, List.prefix_refl _⟩

theorem Block.Still.trans {b c d : Block} (h : b.Still c) (h' : c.Still d) : b.Still d :=
  ⟨h'.id.trans h.id, h'.dialect.trans h.dialect, h'.graph.trans h.graph, h.code.trans h'.code⟩

namespace Session

/-- The blocks keep their code and their nodes, and no node got an identity. -/
structure Still (s t : Session) : Prop where
  isWatching : t.isWatching = s.isWatching
  units : t.counters.units = s.counters.units
  nextUid : t.nextUid = s.nextUid
  size : t.blocks.size = s.blocks.size
  blocks : ∀ id b, s.block? id = some b → ∃ c, t.block? id = some c ∧ b.Still c

variable {s t u : Session}

theorem Still.refl (s : Session) : s.Still s := ⟨rfl, rfl, rfl, rfl, fun _ b hb => ⟨b, hb, .refl b⟩⟩

theorem Still.trans (h : s.Still t) (h' : t.Still u) : s.Still u := by
  refine ⟨h'.isWatching.trans h.isWatching, h'.units.trans h.units, h'.nextUid.trans h.nextUid,
    h'.size.trans h.size, fun id b hb => ?_⟩
  obtain ⟨c, hc, hbc⟩ := h.blocks id b hb
  obtain ⟨d, hd, hcd⟩ := h'.blocks id c hc
  exact ⟨d, hd, hbc.trans hcd⟩

theorem still_of_blocks (hw : t.isWatching = s.isWatching) (hu : t.counters.units = s.counters.units)
    (hn : t.nextUid = s.nextUid) (hb : t.blocks = s.blocks) : s.Still t := by
  refine ⟨hw, hu, hn, congrArg Array.size hb, fun id b hid => ⟨b, ?_, .refl b⟩⟩
  rwa [block?, hb]

theorem still_modifyBlock {g : Block → Block} (hg : ∀ b : Block, b.Still (g b)) (s : Session) (id : Nat) :
    s.Still (s.modifyBlock id g) := by
  refine ⟨rfl, rfl, rfl, size_blocks_modifyBlock _ _ _, fun other b hb => ?_⟩
  rw [block?_modifyBlock]
  split
  · exact ⟨g b, by rw [hb, Option.map_some], hg b⟩
  · exact ⟨b, hb, .refl b⟩

theorem still_emit (s : Session) (block : Nat) (i : Instruction) (span : Span) :
    s.Still (s.emit block i span) := by
  unfold emit
  split
  · exact still_of_blocks rfl rfl rfl rfl
  · have hmap (debugMap : DebugMap) : s.Still { s with debugMap } := still_of_blocks rfl rfl rfl rfl
    refine (hmap _).trans (still_modifyBlock ?_ _ block)
    intro b
    refine ⟨rfl, rfl, rfl, ?_⟩
    rw [Array.toList_push]
    exact List.prefix_append _ _

theorem still_noteEmission (s : Session) (f : Frame) (pc : Nat) (i : Instruction) :
    s.Still (s.noteEmission f pc i) := by
  unfold noteEmission
  split
  · exact still_of_blocks rfl rfl rfl rfl
  · exact .refl s

end Session

namespace Lowering

variable {α β : Type} {inert pushes : Bool}

/-- What a step below the level of statements keeps. -/
structure Kept (inert : Bool) (s t : State) : Prop where
  session : s.session.Still t.session
  node : t.node.core = s.node.core
  held : t.held.map GraphNode.core = s.held.map GraphNode.core
  pointers : t.pointers = s.pointers
  holds : inert = true → t.held = s.held
  inert : inert = true → s.session.SameNames t.session ∧ t.node = s.node

theorem Kept.refl (s : State) : Kept inert s s :=
  ⟨.refl _, rfl, rfl, rfl, fun _ => rfl, fun _ => ⟨.refl _, rfl⟩⟩

theorem Kept.trans {s t u : State} (h : Kept inert s t) (h' : Kept inert t u) : Kept inert s u := by
  refine ⟨h.session.trans h'.session, h'.node.trans h.node, h'.held.trans h.held,
    h'.pointers.trans h.pointers, fun hi => (h'.holds hi).trans (h.holds hi), fun hi => ?_⟩
  obtain ⟨hnames, hnode⟩ := h.inert hi
  obtain ⟨hnames', hnode'⟩ := h'.inert hi
  exact ⟨hnames.trans hnames', hnode'.trans hnode⟩

theorem Kept.ofSession {s : State} {t : Session} (h : s.session.Still t)
    (hi : inert = true → s.session.SameNames t) : Kept inert s { s with session := t } :=
  ⟨h, rfl, rfl, rfl, fun _ => rfl, fun h => ⟨hi h, rfl⟩⟩

/-- The state in which a run ends, however it ends. -/
def ending : EStateM.Result Stop State α → State
  | .ok _ t => t
  | .error _ t => t

theorem ok_of_matches {m : Lower α} {f : Frame} {s : State} (h : (m f s matches .ok _ _) = true) : ∃ a t, m f s = .ok a t := by
  split at h
  · next a t hrun => exact ⟨a, t, hrun⟩
  · cases h

/-- What can be computed of a run is so of its result. -/
theorem of_ok {result : EStateM.Result Stop State α} {p : α → State → Bool}
    (h : (match result with | .ok a t => p a t | .error _ _ => false) = true) {a : α} {t : State}
    (hr : result = .ok a t) : p a t = true := by
  subst hr
  exact h

/-- A run that does not stop, told by what it ends in. -/
theorem eq_ok_ending {m : Lower Unit} {f : Frame} {s : State} (h : (m f s matches .ok _ _) = true) :
    m f s = .ok () (ending (m f s)) := by
  split at h
  · next hrun => rw [hrun, ending]
  · cases h

/-! ## Mild steps -/

/-- The state but for what only a debugger needs and for remembered segments. -/
def State.bare (s : State) : State := { s.erase with pointers := [] }

theorem showsSession_bare : ShowsSession State.bare := fun _ _ h => congrArg State.session h

theorem State.bare_session_congr {s t : State} (h : s.bare = t.bare) {a b : Session}
    (hab : a.erase = b.erase) :
    ({ s with session := a } : State).bare = ({ t with session := b } : State).bare := by
  have hrest := congrArg (fun u : State => { u with session := a.erase }) h
  unfold bare erase at hrest ⊢
  rw [← hab]
  exact hrest

/-- The state but for remembered segments. -/
def State.trimmed (s : State) : State := { s with pointers := [] }

theorem State.eq_of_trimmed {s t : State} (h : s.trimmed = t.trimmed) : t = { s with pointers := t.pointers } :=
  (congrArg (fun u : State => { u with pointers := t.pointers }) h).symm

/-- Two steps that do the same but for what is left out, and what the first one keeps and emits. -/
structure Mild (inert pushes : Bool) (m n : Lower α) : Prop where
  alike : Alike State.bare m n
  same : Alike State.trimmed m n
  keeps : ∀ f s, Kept inert s (ending (m f s))
  emits : ∀ f s a t, m f s = .ok a t →
    (s.session.stream f.block).size + pushes.toNat ≤ (t.session.stream f.block).size

/-- A step that is mild by itself. -/
abbrev Tame (inert pushes : Bool) (m : Lower α) : Prop := Mild inert pushes m m

namespace Mild

variable {m n : Lower α} {k l : α → Lower β}

theorem keeps_ok (h : Mild inert pushes m n) {f : Frame} {s t : State} {a : α}
    (hrun : m f s = .ok a t) : Kept inert s t := by
  have := h.keeps f s
  rwa [hrun] at this

theorem weaken (h : Mild inert pushes m n) : Mild inert false m n := by
  refine ⟨h.alike, h.same, h.keeps, fun f s a t hrun => ?_⟩
  exact Nat.le_trans (Nat.le_add_right _ pushes.toNat) (h.emits f s a t hrun)

theorem any (h : Mild inert true m n) : Mild inert pushes m n := by
  cases pushes with
  | true => exact h
  | false => exact h.weaken

/-- Steps that read something of the state first and go on with what they have read, or stop. -/
theorem reading {ι : Type} {k l : ι → Lower α} (halike : Alike State.bare m n) (hsame : Alike State.trimmed m n)
    (hm : ∀ f s, (∃ a, m f s = k a f s) ∨ ∃ e, m f s = .error e s)
    (h : ∀ a, Mild inert pushes (k a) (l a)) : Mild inert pushes m n := by
  refine ⟨halike, hsame, fun f s => ?_, fun f s b t hrun => ?_⟩
  · obtain ⟨a, ha⟩ | ⟨e, he⟩ := hm f s
    · rw [ha]
      exact (h a).keeps f s
    · rw [he]
      exact .refl s
  · obtain ⟨a, ha⟩ | ⟨e, he⟩ := hm f s
    · rw [ha] at hrun
      exact (h a).emits f s b t hrun
    · rw [he] at hrun
      cases hrun

theorem pure (a : α) : Tame inert false (Pure.pure a : Lower α) := by
  refine ⟨.pure a, .pure a, fun _ s => .refl s, fun f s b t hrun => ?_⟩
  cases hrun
  exact Nat.le_refl _

theorem andThen {p q : Bool} (hm : Mild inert p m n) (hk : ∀ a, Mild inert q (k a) (l a)) :
    Mild inert (p || q) (m >>= k) (n >>= l) := by
  refine ⟨.bind hm.alike fun a => (hk a).alike, .bind hm.same fun a => (hk a).same, fun f s => ?_,
    fun f s b u hrun => ?_⟩
  · have hkeep := hm.keeps f s
    rw [run_bind]
    cases hs : m f s <;> rw [hs] at hkeep
    · exact hkeep.trans ((hk _).keeps f _)
    · exact hkeep
  · obtain ⟨a, t, hs, ht⟩ := bind_eq_ok.mp hrun
    have hfirst := hm.emits f s a t hs
    have hsecond := (hk a).emits f t b u ht
    cases p <;> cases q <;> simp only [Bool.or_true, Bool.or_false, Bool.toNat_true,
      Bool.toNat_false] at hfirst hsecond ⊢ <;> omega

theorem bind (hm : Mild inert false m n) (hk : ∀ a, Mild inert pushes (k a) (l a)) :
    Mild inert pushes (m >>= k) (n >>= l) := andThen hm hk

theorem first (hm : Mild inert true m n) (hk : ∀ a, Mild inert false (k a) (l a)) :
    Mild inert pushes (m >>= k) (n >>= l) := any (andThen hm hk)

theorem ite {c : Prop} [Decidable c] {m' n' : Lower α} (hm : Mild inert pushes m n)
    (hn : Mild inert pushes m' n') :
    Mild inert pushes (if c then m else m') (if c then n else n') := by
  split
  · exact hm
  · exact hn

theorem onlyIf {c : Prop} [Decidable c] {m' n' : Lower β} (hm : Mild inert false m n)
    (hk : Mild inert pushes m' n') :
    Mild inert pushes (if c then m >>= fun _ => m' else m') (if c then n >>= fun _ => n' else n') :=
  ite (bind hm fun _ => hk) hk

theorem forM {l : List β} {k k' : β → Lower Unit}
    (h : ∀ a ∈ l, Mild inert false (k a) (k' a)) : Mild inert false (l.forM k) (l.forM k') := by
  induction l with
  | nil => exact pure ()
  | cons a rest ih =>
    exact bind (h a (List.mem_cons_self ..)) fun _ => ih fun b hb => h b (List.mem_cons_of_mem a hb)

theorem withReader {g : Frame → Frame} (hg : ∀ f, (g f).block = f.block)
    (h : Mild inert pushes m n) :
    Mild inert pushes (MonadWithReader.withReader g m : Lower α) (MonadWithReader.withReader g n) := by
  refine ⟨fun f => h.alike (g f), fun f => h.same (g f), fun f => h.keeps (g f), fun f s a t hrun => ?_⟩
  have hm := h.emits (g f) s a t hrun
  rwa [hg] at hm

theorem throw (stop : Stop) : Tame inert pushes (MonadExcept.throw stop : Lower α) :=
  ⟨.throw stop, .throw stop, fun _ s => .refl s, fun _ _ _ _ hrun => by cases hrun⟩

theorem defect (d : Defect) : Tame inert pushes (Lowering.defect d : Lower α) := throw (.defect d)

theorem defectThen (d : Defect) (k l : α → Lower β) :
    Mild inert pushes (Lowering.defect d >>= k) (Lowering.defect d >>= l) :=
  ⟨fun _ _ _ h => congrArg (EStateM.Result.error _) h, fun _ _ _ h => congrArg (EStateM.Result.error _) h,
    fun _ s => .refl s, fun _ _ _ _ hrun => by cases hrun⟩

/-! ## Reading -/

theorem read : Tame inert false (MonadReader.read : Lower Frame) :=
  reading (k := Pure.pure) (fun f _ _ h => congrArg (EStateM.Result.ok f) h)
    (fun f _ _ h => congrArg (EStateM.Result.ok f) h) (fun f _ => .inl ⟨f, rfl⟩) pure

theorem same_withSession {k l : Session → Lower α} (h : ∀ s, Alike State.trimmed (k s) (l s)) :
    Alike State.trimmed (getSession >>= k) (getSession >>= l) := by
  intro f s t hst
  have hsession : t.session = s.session := (congrArg State.session hst).symm
  change seen _ (k s.session f s) = seen _ (l t.session f t)
  rw [hsession]
  exact h s.session f s t hst

theorem withSession {k l : Session → Lower α} (hk : ∀ s, k s.erase = k s)
    (h : ∀ s, Mild inert pushes (k s) (l s)) :
    Mild inert pushes (getSession >>= k) (getSession >>= l) :=
  reading (.withSession showsSession_bare hk fun s => (h s).alike)
    (same_withSession fun s => (h s).same) (fun _ s => .inl ⟨s.session, rfl⟩) h

theorem withState {k l : State → Lower α} (hk : ∀ s, k s.bare = k s)
    (h : ∀ s, Mild inert pushes (k s) (l s)) :
    Mild inert pushes (MonadState.get >>= k) (MonadState.get >>= l) :=
  reading (k := k) (.withState hk fun s => (h s).alike)
    (.withState (fun s => (hk s.trimmed).symm.trans (hk s)) fun s => (h s).same) (fun _ s => .inl ⟨s, rfl⟩) h

theorem classScope : Tame inert false classScope := bind read fun _ => pure _

theorem withBlock {id : Nat} {k l : Block → Lower α} (hk : ∀ b, k b.erase = k b)
    (h : ∀ b, Mild inert pushes (k b) (l b)) :
    Mild inert pushes (getBlock id >>= k) (getBlock id >>= l) := by
  refine reading (.withBlock showsSession_bare hk fun b => (h b).alike) (fun f s t hst => ?_) (fun f s => ?_) h
  · obtain ⟨t, rfl⟩ : ∃ p, t = { s with pointers := p } := ⟨_, State.eq_of_trimmed hst⟩
    rw [run_bind, run_bind, run_getBlock, run_getBlock]
    dsimp only
    cases s.session.block? id with
    | none => rfl
    | some b => exact (h b).same f _ _ hst
  · rw [run_bind, run_getBlock]
    cases s.session.block? id with
    | none => exact .inr ⟨_, rfl⟩
    | some b => exact .inl ⟨b, rfl⟩

theorem getSymbol (r : SymbolRef) : Tame inert false (getSymbol r) := by
  have hsame (s : Session) : s.erase.symbol? r = s.symbol? r := s.sameNames_erase.symbol?_eq r
  refine withSession (fun s => by rw [hsame]) fun s => ?_
  split
  · exact pure _
  · exact defect _

theorem withSight {k l : Sight → Lower α} (hk : ∀ v, k v.erase = k v)
    (h : ∀ v, Mild inert pushes (k v) (l v)) :
    Mild inert pushes (sight >>= k) (sight >>= l) := by
  refine reading (.withSight showsSession_bare hk fun v => (h v).alike) (fun f s t hst => ?_) (fun f s => ?_) h
  · obtain ⟨t, rfl⟩ : ∃ p, t = { s with pointers := p } := ⟨_, State.eq_of_trimmed hst⟩
    rw [run_bind, run_bind, run_sight, run_sight]
    dsimp only
    cases sightIn f s.session with
    | error id => rfl
    | ok v => exact (h v).same f _ _ hst
  · rw [run_bind, run_sight]
    cases sightIn f s.session with
    | error id => exact .inr ⟨_, rfl⟩
    | ok v => exact .inl ⟨v, rfl⟩

theorem pc : Tame inert false pc := by
  refine withSession (fun s => ?_) fun s => ite (pure _) ?_
  · simp [Session.erase]
  · exact bind read fun f => withBlock (fun b => by simp [Block.erase]) fun _ => pure _

/-! ## Changing the state -/

/-- The state is changed beside the session, in a way that does not depend on what is left out. -/
theorem modifyState {g : State → State} (k : State → State) (h : ∀ s, (g s).bare = k s.bare)
    (hkept : ∀ s, Kept inert s (g s)) (hsession : ∀ s, (g s).session = s.session) :
    Tame inert false (modify g : Lower Unit) := by
  refine ⟨fun f s t hst => ?_, fun f s t hst => ?_, fun _ s => hkept s, fun f s a t hrun => ?_⟩
  · refine congrArg (EStateM.Result.ok ()) ?_
    rw [h, h, hst]
  · -- The changed state is known by what it is without what is left out, and by its session.
    have hknown (u : State) : (g u).trimmed = { k u.trimmed.bare with session := u.trimmed.session } := by
      change _ = { k u.bare with session := u.session }
      rw [← h u, ← hsession u]
      rfl
    refine congrArg (EStateM.Result.ok ()) ?_
    rw [hknown, hknown, hst]
  · have ht : g s = t := (EStateM.Result.ok.inj hrun).2
    rw [← ht, hsession]
    exact Nat.le_refl _

theorem modifyNode {g : GraphNode → GraphNode} (hg : ∀ n, (g n).core = n.core) :
    Tame false false (modifyNode g) :=
  modifyState (fun s => { s with node := g s.node }) (fun _ => rfl)
    (fun s => ⟨.refl _, hg s.node, rfl, rfl, nofun, nofun⟩) fun _ => rfl

theorem same_modifySession (g : Session → Session) :
    Alike State.trimmed (modifySession g) (modifySession g) := by
  intro f s t hst
  rw [State.eq_of_trimmed hst]
  rfl

/-- The session is changed, but neither its blocks nor what names stand for. -/
theorem annotate {g : Session → Session} (k : Session → Session) (h : ∀ s, (g s).erase = k s.erase)
    (hblocks : ∀ s, (g s).blocks = s.blocks ∧ (g s).watch = s.watch)
    (hflags : ∀ s, (g s).isWatching = s.isWatching ∧ (g s).isParsingModule = s.isParsingModule)
    (hcounts : ∀ s, (g s).nextUid = s.nextUid ∧ (g s).counters.units = s.counters.units)
    (htables : ∀ s, (g s).classes = s.classes ∧ (g s).procedures = s.procedures) :
    Tame inert false (modifySession g) := by
  refine ⟨fun f s t hst => ?_, same_modifySession g, fun f s => ?_, fun f s a t hrun => ?_⟩
  · refine congrArg (EStateM.Result.ok ()) (State.bare_session_congr hst ?_)
    rw [h, h, showsSession_bare _ _ hst]
  · refine .ofSession (Session.still_of_blocks (hflags _).1 (hcounts _).2 (hcounts _).1 (hblocks _).1)
      fun _ => ⟨(htables _).1, (htables _).2, (hflags _).1, (hflags _).2, ?_, ?_⟩
    · rw [(hblocks _).1]
    · funext id
      rw [Session.header?, Session.block?, (hblocks _).1]
      rfl
  · cases hrun
    unfold Session.stream Session.block?
    dsimp only
    rw [(hblocks _).1, (hblocks _).2, (hflags _).1]
    exact Nat.le_refl _

theorem note (level : LogLevel) (topic : LogTopic) (message : String) :
    Tame inert false (Lowering.note level topic message) :=
  annotate id (fun _ => rfl) (fun _ => ⟨rfl, rfl⟩) (fun _ => ⟨rfl, rfl⟩) (fun _ => ⟨rfl, rfl⟩)
    fun _ => ⟨rfl, rfl⟩

theorem report (issue : Issue) (message : String) (span : Span) :
    Tame inert false (Lowering.report issue message span) :=
  annotate
    (fun s => { s with diagnostics := s.diagnostics.push (s.diagnostic issue message span) })
    (fun _ => rfl) (fun _ => ⟨rfl, rfl⟩) (fun _ => ⟨rfl, rfl⟩) (fun _ => ⟨rfl, rfl⟩)
    fun _ => ⟨rfl, rfl⟩

theorem halt (issue : Issue) (message : String) (span : Span) :
    Tame inert pushes (Lowering.halt issue message span : Lower α) := by
  refine withSession (fun _ => rfl) fun u => bind ?_ fun _ => throw _
  exact annotate
    (fun s => { s with diagnostics := s.diagnostics.push (u.diagnostic issue message span) })
    (fun _ => rfl) (fun _ => ⟨rfl, rfl⟩) (fun _ => ⟨rfl, rfl⟩) (fun _ => ⟨rfl, rfl⟩)
    fun _ => ⟨rfl, rfl⟩

theorem nextTemporary (letters : String) : Tame inert false (nextTemporary letters) := by
  refine withSession (fun _ => rfl) fun u => bind ?_ fun _ => pure _
  exact annotate
    (fun s => { s with counters := { s.counters with temporaries := u.counters.temporaries + 1 } })
    (fun _ => rfl) (fun _ => ⟨rfl, rfl⟩) (fun _ => ⟨rfl, rfl⟩) (fun _ => ⟨rfl, rfl⟩)
    fun _ => ⟨rfl, rfl⟩

/-! ## Declaring -/

theorem modifyBlock {id : Nat} {g : Block → Block} (hsame : ∀ b : Block, b.Still (g b))
    (herase : ∀ b, (g b).erase = g b.erase) (hcode : ∀ b, (g b).code = b.code) :
    Tame false false (modifySession fun s => s.modifyBlock id g) := by
  refine ⟨fun f s t hst => ?_, same_modifySession _, fun f s => ?_, fun f s a t hrun => ?_⟩
  · refine congrArg (EStateM.Result.ok ()) (State.bare_session_congr hst ?_)
    rw [Session.erase_modifyBlock _ herase, Session.erase_modifyBlock _ herase,
      showsSession_bare _ _ hst]
  · exact .ofSession (Session.still_modifyBlock hsame _ id) nofun
  · cases hrun
    have hstream : (s.session.modifyBlock id g).stream f.block = s.session.stream f.block := by
      unfold Session.stream
      rw [Session.block?_modifyBlock]
      change (if s.session.isWatching then s.session.watch else _) = _
      split
      · rfl
      · split
        · cases s.session.block? f.block with
          | none => rfl
          | some b => exact hcode b
        · rfl
    rw [hstream]
    exact Nat.le_refl _

theorem appendLocal (x : Symbol) : Tame false false (appendLocal x) := by
  refine bind read fun f => withBlock (fun _ => rfl) fun b => bind ?_ fun _ => pure _
  exact modifyBlock (fun b => ⟨rfl, rfl, rfl, List.prefix_refl _⟩) (fun _ => rfl) fun _ => rfl

theorem modifyClasses (g : ClassTable → ClassTable) :
    Tame false false (modifySession fun s => { s with classes := g s.classes }) := by
  refine ⟨fun f s t hst => ?_, same_modifySession _, fun f s => ?_, fun f s a t hrun => ?_⟩
  · refine congrArg (EStateM.Result.ok ()) (State.bare_session_congr hst ?_)
    have hsame := congrArg (fun u : Session => { u with classes := g u.classes })
      (showsSession_bare _ _ hst)
    exact hsame
  · exact .ofSession (Session.still_of_blocks rfl rfl rfl rfl) nofun
  · cases hrun
    exact Nat.le_refl _

theorem appendMember (cls : Nat) (x : Symbol) : Tame false false (appendMember cls x) := by
  refine withSession (fun _ => rfl) fun s => ?_
  split
  · exact defect _
  · refine bind (modifyClasses fun classes => classes.appendSymbol cls x) fun _ => ?_
    refine onlyIf (withBlock (fun _ => rfl) fun _ => ?_) (pure _)
    exact modifyBlock (fun b => ⟨rfl, rfl, rfl, List.prefix_refl _⟩) (fun _ => rfl) fun _ => rfl

theorem allocate (d : Declaration) : Tame false false (allocate d) := by
  refine bind read fun f => withSession (fun _ => rfl) fun u => bind ?_ fun _ => ?_
  · refine annotate (fun s =>
        { s with
          counters := countersAfter d s (bucketOf u.isWatching f.scope d.isStatic)
            (symbolOf d u f (bucketOf u.isWatching f.scope d.isStatic)).size })
      (fun _ => rfl) (fun _ => ⟨rfl, rfl⟩) (fun _ => ⟨rfl, rfl⟩) (fun s => ⟨rfl, ?_⟩)
      fun _ => ⟨rfl, rfl⟩
    exact units_countersAfter d s _ _
  · split
    · exact appendMember _ _
    · exact appendMember _ _
    · exact appendLocal _

/-! ## Emitting -/

/-- The step emits one instruction, with whatever debug record. -/
def Emits (i : Instruction) (span : Span) (m : Lower Nat) : Prop :=
  ∀ f s, ∃ debug, m f s = Lowering.emitWith i span debug f s

theorem emits_emitWith (i : Instruction) (span : Span) (debug : Option DebugRecord) :
    Emits i span (emitWith i span debug) := fun _ _ => ⟨debug, rfl⟩

theorem emits_emitStepping (i : Instruction) (span : Span) (steps : List (Option Nat)) :
    Emits i span (emitStepping i span steps) := by
  intro f s
  by_cases h : s.session.CanEmit f.block
  · refine ⟨debugRecord? s.session.options span steps (s.session.stream f.block).size, ?_⟩
    rw [emitStepping, run_bind, run_pc f s h]
    rfl
  · refine ⟨none, ?_⟩
    rw [emitStepping, run_bind, run_pc_error f s h, run_emitWith_error i span none f s h]

theorem same_emitWith (i : Instruction) (span : Span) (debug : Option DebugRecord) :
    Alike State.trimmed (emitWith i span debug) (emitWith i span debug) := by
  intro f s t hst
  obtain ⟨p, rfl⟩ : ∃ p, t = { s with pointers := p } := ⟨_, State.eq_of_trimmed hst⟩
  by_cases h : s.session.CanEmit f.block
  · rw [run_emitWith i span debug f s h, run_emitWith i span debug f { s with pointers := p } h]
    rfl
  · rw [run_emitWith_error i span debug f s h, run_emitWith_error i span debug f { s with pointers := p } h]
    rfl

theorem same_emitStepping (i : Instruction) (span : Span) (steps : List (Option Nat)) :
    Alike State.trimmed (emitStepping i span steps) (emitStepping i span steps) := by
  intro f s t hst
  obtain ⟨p, rfl⟩ : ∃ p, t = { s with pointers := p } := ⟨_, State.eq_of_trimmed hst⟩
  unfold emitStepping
  rw [run_bind, run_bind]
  by_cases h : s.session.CanEmit f.block
  · rw [run_pc f s h, run_pc f { s with pointers := p } h]
    exact same_emitWith i span _ f _ _ hst
  · rw [run_pc_error f s h, run_pc_error f { s with pointers := p } h]
    rfl

theorem same_onSwitch {c : Session → Bool} {m n : Lower Nat} (hm : Alike State.trimmed m m)
    (hn : Alike State.trimmed n n) :
    Alike State.trimmed (getSession >>= fun s => if c s then m else n)
      (getSession >>= fun s => if c s then m else n) :=
  same_withSession fun s => by
    split
    · exact hm
    · exact hn

theorem Emits.onSwitch {i : Instruction} {span : Span} {c : Session → Bool} {m n : Lower Nat}
    (hm : Emits i span m) (hn : Emits i span n) :
    Emits i span (getSession >>= fun s => if c s then m else n) := by
  intro f s
  rw [run_bind, run_getSession]
  dsimp only
  rw [run_ite]
  split
  · exact hm f s
  · exact hn f s

theorem alike_emitWith (i : Instruction) (span : Span) (debug debug' : Option DebugRecord)
    (f : Frame) {s t : State} (hst : s.bare = t.bare) :
    seen State.bare (emitWith i span debug f s) = seen State.bare (emitWith i span debug' f t) := by
  have hsession := showsSession_bare _ _ hst
  have hcan : s.session.CanEmit f.block ↔ t.session.CanEmit f.block := by
    rw [← Session.canEmit_erase, hsession, Session.canEmit_erase]
  have hsize : (s.session.stream f.block).size = (t.session.stream f.block).size := by
    have := congrArg (fun u : Session => (u.stream f.block).size) hsession
    simpa only [Session.stream_erase, Array.size_map] using this
  by_cases h : s.session.CanEmit f.block
  · rw [run_emitWith i span debug f s h, run_emitWith i span debug' f t (hcan.mp h)]
    refine (congrArg (EStateM.Result.ok _) (State.bare_session_congr hst ?_)).trans
      (congrArg (EStateM.Result.ok · _) hsize)
    rw [Session.erase_emit, Session.erase_emit, Session.erase_noteEmission,
      Session.erase_noteEmission, hsession]
    rfl
  · rw [run_emitWith_error i span debug f s h,
      run_emitWith_error i span debug' f t (fun h' => h (hcan.mpr h'))]
    exact congrArg (EStateM.Result.error _) hst

theorem ofEmits {i : Instruction} {span : Span} {m : Lower Nat} (h : Emits i span m)
    (hsame : Alike State.trimmed m m) :
    Tame inert pushes m := by
  refine any ⟨fun f s t hst => ?_, hsame, fun f s => ?_, fun f s a t hrun => ?_⟩
  · obtain ⟨debug, hs⟩ := h f s
    obtain ⟨debug', ht⟩ := h f t
    rw [hs, ht]
    exact alike_emitWith i span debug debug' f hst
  · obtain ⟨debug, hs⟩ := h f s
    rw [hs]
    by_cases hcan : s.session.CanEmit f.block
    · rw [run_emitWith i span debug f s hcan]
      exact .ofSession ((Session.still_noteEmission ..).trans (Session.still_emit ..))
        fun _ => (Session.sameNames_noteEmission ..).trans (Session.sameNames_emit ..)
    · rw [run_emitWith_error i span debug f s hcan]
      exact .refl s
  · obtain ⟨debug, hs⟩ := h f s
    rw [hs] at hrun
    by_cases hcan : s.session.CanEmit f.block
    · rw [run_emitWith i span debug f s hcan] at hrun
      cases hrun
      rw [Session.stream_emit ((Session.canEmit_noteEmission f _ _).mpr hcan),
        Session.stream_noteEmission, Array.size_push]
      exact Nat.le_refl _
    · rw [run_emitWith_error i span debug f s hcan] at hrun
      cases hrun

theorem emitSilent (i : Instruction) (span : Span) : Tame inert pushes (emitSilent i span) :=
  ofEmits (emits_emitWith i span none) (same_emitWith i span none)

theorem emitStepping (i : Instruction) (span : Span) (steps : List (Option Nat)) :
    Tame inert pushes (emitStepping i span steps) :=
  ofEmits (emits_emitStepping i span steps) (same_emitStepping i span steps)

theorem emit (i : Instruction) (span : Span) : Tame inert pushes (emit i span) :=
  emitStepping i span []

theorem emitPopSymbol (symbol : Symbol) (dims : Nat) (span : Span) :
    Tame inert pushes (emitPopSymbol symbol dims span) :=
  ofEmits (Emits.onSwitch
    (c := fun s => symbol.isTemporary && !s.options.emitPopForTempBreakpoint)
    (emits_emitWith _ span none) (emits_emitStepping _ span []))
    (same_onSwitch (c := fun s => symbol.isTemporary && !s.options.emitPopForTempBreakpoint)
      (same_emitWith _ span none) (same_emitStepping _ span []))

theorem emitCjmp (condition : Operand) (holds : Nat) (span : Span) :
    Tame inert pushes (emitCjmp condition holds span) :=
  ofEmits (Emits.onSwitch (c := fun s => s.options.emitInlineConditionalBreakpoint)
    (emits_emitWith _ span none) (emits_emitStepping _ span [some holds, none]))
    (same_onSwitch (c := fun s => s.options.emitInlineConditionalBreakpoint) (same_emitWith _ span none)
      (same_emitStepping _ span [some holds, none]))

theorem classOperand : Tame inert false classOperand := bind classScope fun _ => pure _

theorem blockOperand : Tame inert false blockOperand := bind read fun _ => pure _

theorem emitPush (operand : Operand) (dims : Nat) (span : Span) :
    Tame inert pushes (emitPush operand dims span) := bind classOperand fun _ => emit _ span

theorem emitPushm (operand : Operand) (cls : Option Nat) (span : Span) :
    Tame inert pushes (emitPushm operand cls span) := bind blockOperand fun _ => emit _ span

theorem emitPushlist (depth : Nat) (afterCall : Bool) (span : Span) :
    Tame inert pushes (emitPushlist depth afterCall span) :=
  bind classOperand fun _ => bind blockOperand fun _ => emitSilent _ span

theorem emitPushIndex (operand : Operand) : Tame inert pushes (emitPushIndex operand) :=
  emitSilent _ .nil

theorem emitPushDims (dims : Nat) : Tame inert pushes (emitPushDims dims) :=
  bind classOperand fun _ => emitSilent _ .nil

theorem emitPushVarData (block dims : Nat) (type : Ty) :
    Tame inert pushes (emitPushVarData block dims type) := by
  refine bind classOperand fun _ => bind (emitSilent _ .nil) fun _ => bind (emitSilent _ .nil) fun _ => ?_
  exact bind classOperand fun _ => emitSilent _ .nil

theorem emitPop (operand : Operand) (cls : Option Nat) (span : Span) :
    Tame inert pushes (emitPop operand cls span) := emit _ span

theorem emitStore (symbol : Symbol) (dims : Nat) (span : Span) :
    Tame inert pushes (emitStore symbol dims span) :=
  bind (emitPushVarData _ _ _) fun _ => emitPopSymbol symbol dims span

theorem emitPoplist (depth : Nat) (start : Option Nat) (span : Span) :
    Tame inert pushes (emitPoplist depth start span) := bind blockOperand fun _ => emit _ span

theorem emitAlloca (count : Nat) (isString : Bool) :
    Tame inert pushes (emitAlloca count isString) := emitSilent _ .nil

theorem emitHeapBox (symbol : Symbol) : Tame inert false (emitHeapBox symbol) := by
  unfold Lowering.emitHeapBox
  split
  · exact pure _
  · exact bind (emitSilent _ .nil) fun _ => bind (emitSilent _ .nil) fun _ => pure _

theorem emitGuides (guides : List Guide) : Tame inert false (emitGuides guides) := by
  refine bind (forM fun g _ => ?_) fun _ => ?_
  · exact bind (emitPush _ _ _) fun _ => pure _
  · exact bind (emitPushIndex _) fun _ => pure _

theorem emitCallTo (opcode : OpCode) (target : ProcRef) (depth : Nat) (span : Span) :
    Tame inert pushes (emitCallTo opcode target depth span) := emit _ span

theorem emitLateCall (index depth : Nat) (span : Span) :
    Tame inert pushes (emitLateCall index depth span) := bind classOperand fun _ => emit _ span

theorem emitLeave : Tame inert pushes emitLeave := bind read fun _ => emit _ _

theorem emitResult (span : Span) : Tame inert pushes (emitResult span) :=
  bind classScope fun _ => bind (emitPop _ _ _) fun _ => emitLeave

end Mild

end Lowering

end Diglot
