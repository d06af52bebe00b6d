import Diglot.Proofs.Sight

/-! # Leaving out what only a debugger needs

Some switches only decide what is recorded for a debugger: the debug records of instructions, and lines
of the log. `Session.erase` leaves both out, and the switches themselves.

* `sightIn_erase` and the lemmas before it: names are looked up alike without it.
* `Alike E m n`: from states that `E` shows alike, `m` and `n` return the same and end in states that
  `E` shows alike. Steps that read the session run alike if they go on alike without what is left out
  (`Alike.withSession`, `Alike.withBlock`, `Alike.withSight`).
-/

set_option autoImplicit false

namespace Diglot

open Lowering

/-! ## Erasure -/

/-- The options without the switches that only matter to a debugger. -/
def Options.erase (o : Options) : Options :=
  { fullSsa := o.fullSsa, replicationGuides := o.replicationGuides
    enforceTypeCheck := o.enforceTypeCheck }

def Instruction.erase (i : Instruction) : Instruction := { i with debug := none }

def Block.erase (b : Block) : Block := { b with code := b.code.map Instruction.erase }

/-- The session without what only a debugger needs. -/
def Session.erase (s : Session) : Session :=
  { s with
    options := s.options.erase
    blocks := s.blocks.map Block.erase
    watch := s.watch.map Instruction.erase
    log := #[] }

def Lowering.State.erase (s : State) : State := { s with session := s.session.erase }

def Lowering.Sight.erase (v : Sight) : Sight := { v with session := v.session.erase }

namespace Session

variable (s : Session)

theorem block?_erase (id : Nat) : s.erase.block? id = (s.block? id).map Block.erase :=
  Array.getElem?_map

theorem stream_erase (block : Nat) :
    s.erase.stream block = (s.stream block).map Instruction.erase := by
  unfold stream
  rw [block?_erase]
  change (if s.isWatching then s.watch.map Instruction.erase else _) = _
  split
  · rfl
  · cases s.block? block <;> simp [Block.erase]

theorem canEmit_erase (block : Nat) : s.erase.CanEmit block ↔ s.CanEmit block := by
  unfold CanEmit
  rw [block?_erase, Option.isSome_map]
  rfl

theorem sameNames_erase : s.SameNames s.erase := by
  refine ⟨rfl, rfl, rfl, rfl, Array.size_map, ?_⟩
  funext id
  unfold header?
  rw [block?_erase, Option.map_map]
  rfl

theorem erase_modifyBlock {g k : Block → Block} (h : ∀ b, (g b).erase = k b.erase) (id : Nat) :
    (s.modifyBlock id g).erase = s.erase.modifyBlock id k := by
  have hblocks : (s.blocks.modify id g).map Block.erase = (s.blocks.map Block.erase).modify id k := by
    refine Array.ext_getElem? fun i => ?_
    rw [Array.getElem?_map, Array.getElem?_modify, Array.getElem?_modify, Array.getElem?_map]
    split
    · cases s.blocks[i]? with
      | none => rfl
      | some b => exact congrArg some (h b)
    · rfl
  unfold modifyBlock erase
  rw [hblocks]

theorem erase_addBlock (kind : BlockKind) (dialect : Dialect) (parent : Option Nat) :
    (s.addBlock kind dialect parent).erase = s.erase.addBlock kind dialect parent := by
  have hpush (parent : Option Nat) :
      ({ s with blocks := s.blocks.push { id := s.blocks.size, kind, dialect, parent } } :
          Session).erase =
        { s.erase with
          blocks := s.erase.blocks.push { id := s.blocks.size, kind, dialect, parent } } := by
    simp [erase, Block.erase]
  have hsize : s.erase.blocks.size = s.blocks.size := Array.size_map
  unfold addBlock
  rw [hsize]
  cases parent with
  | none => exact hpush none
  | some p =>
    refine (erase_modifyBlock _ (k := fun b => { b with children := b.children.push s.blocks.size }) ?_
      p).trans ?_
    · exact fun _ => rfl
    · rw [hpush]

theorem erase_noteEmission (f : Frame) (pc : Nat) (i : Instruction) :
    (s.noteEmission f pc i).erase = s.erase := by
  unfold noteEmission
  split <;> rfl

theorem erase_emit (block : Nat) (i : Instruction) (span : Span) :
    (s.emit block i span).erase = s.erase.emit block i.erase span := by
  have hpc : ((s.erase.block? block).map fun b => b.code.size).getD 0 =
      ((s.block? block).map fun b => b.code.size).getD 0 := by
    rw [block?_erase]
    cases s.block? block <;> simp [Block.erase]
  cases hw : s.isWatching with
  | true => simp [emit, hw, erase]
  | false =>
    have hw' : s.erase.isWatching = false := hw
    simp only [emit, hw, hw', hpc, Bool.false_eq_true, if_false]
    refine erase_modifyBlock _ (fun b => ?_) block
    simp [Block.erase]

end Session

/-! ## Lookups -/

namespace Lowering.Sight

variable (v : Sight)

theorem symbolsOf_erase (id : Nat) : v.erase.symbolsOf id = v.symbolsOf id :=
  symbolsOf_congr v.session.sameNames_erase v.frame v.blocks id

theorem resolve_erase (name : String) : v.erase.resolve name = v.resolve name :=
  resolve_congr v.session.sameNames_erase v.frame v.blocks name

theorem inClass_erase (cls : Nat) (name : String) : v.erase.inClass cls name = v.inClass cls name :=
  inClass_congr v.session.sameNames_erase v.frame v.blocks cls name

theorem visibleNames_erase : v.erase.visibleNames = v.visibleNames := by
  unfold visibleNames
  simp only [symbolsOf_erase]
  rfl

theorem segmentTarget_erase (name : String) (c : Cursor) :
    v.erase.segmentTarget name c = v.segmentTarget name c := by
  unfold segmentTarget rootTarget memberTarget
  simp only [resolve_erase, inClass_erase]
  rfl

theorem symbol?_erase (r : SymbolRef) : v.erase.session.symbol? r = v.session.symbol? r :=
  v.session.sameNames_erase.symbol?_eq r

theorem accessedProperty?_erase (call : Call) (c : Cursor) :
    accessedProperty? v.erase call c = accessedProperty? v call c := by
  unfold accessedProperty?
  simp only [segmentTarget_erase]

theorem walkSegment_erase (c : Cursor) (node : Node) :
    v.erase.walkSegment c node = v.walkSegment c node := by
  unfold walkSegment walkTarget
  simp only [segmentTarget_erase, symbol?_erase]
  rfl

theorem walk_erase (c : Cursor) (segments : List Node) : v.erase.walk c segments = v.walk c segments := by
  induction segments generalizing c with
  | nil => rfl
  | cons segment rest ih =>
    unfold walk
    simp only [walkSegment_erase, ih]

theorem dependency?_erase (node : Node) : v.erase.dependency? node = v.dependency? node := by
  unfold dependency?
  simp only [walk_erase]

theorem splitAnchor?_erase (segments : List Node) :
    splitAnchor? v.erase segments = splitAnchor? v segments := by
  unfold splitAnchor?
  simp only [resolve_erase]
  rfl

end Lowering.Sight

namespace Lowering

/-- What code of a frame can see in a session, or the block that is missing. -/
def sightIn (f : Frame) (s : Session) : Except Nat Sight :=
  match s.enclosing? f.block with
  | none => .error f.block
  | some blocks =>
    match f.scope.body with
    | none => .ok ⟨s, f, blocks⟩
    | some body => if (s.block? body).isSome then .ok ⟨s, f, blocks⟩ else .error body

theorem run_sight (f : Frame) (s : State) :
    sight f s =
      match sightIn f s.session with
      | .ok v => .ok v s
      | .error id => .error (.defect (.missingBlock id)) s := by
  unfold sight sightIn
  simp only [run_bind, run_read, run_getSession]
  cases s.session.enclosing? f.block with
  | none => rfl
  | some blocks =>
    cases f.scope.body with
    | none => rfl
    | some body =>
      simp only [run_bind, run_getBlock]
      cases s.session.block? body <;> rfl

theorem sightIn_erase (f : Frame) (s : Session) :
    sightIn f s.erase = (sightIn f s).map Sight.erase := by
  unfold sightIn
  rw [s.sameNames_erase.enclosing?_eq]
  cases s.enclosing? f.block with
  | none => rfl
  | some blocks =>
    cases f.scope.body with
    | none => rfl
    | some body =>
      dsimp only
      rw [s.sameNames_erase.block?_isSome]
      split <;> rfl

/-! ## Steps that run alike -/

variable {α β ι : Type}

/-- The run, with its last state as `E` shows it. -/
def seen (E : State → State) : EStateM.Result Stop State α → EStateM.Result Stop State α
  | .ok a s => .ok a (E s)
  | .error e s => .error e (E s)

/-- From states that `E` shows alike, the two steps return the same and end in states that `E` shows
alike. -/
def Alike (E : State → State) (m n : Lower α) : Prop :=
  ∀ f s t, E s = E t → seen E (m f s) = seen E (n f t)

/-- `E` shows the session, but for what only a debugger needs. -/
def ShowsSession (E : State → State) : Prop :=
  ∀ s t, E s = E t → s.session.erase = t.session.erase

namespace Alike

variable {E : State → State}

theorem pure (a : α) : Alike E (Pure.pure a : Lower α) (Pure.pure a) :=
  fun _ _ _ h => congrArg (EStateM.Result.ok a) h

theorem throw (stop : Stop) :
    Alike E (MonadExcept.throw stop : Lower α) (MonadExcept.throw stop) :=
  fun _ _ _ h => congrArg (EStateM.Result.error stop) h

theorem bind {m n : Lower α} {k l : α → Lower β} (hm : Alike E m n)
    (hk : ∀ a, Alike E (k a) (l a)) : Alike E (m >>= k) (n >>= l) := by
  intro f s t h
  have hrun := hm f s t h
  rw [run_bind, run_bind]
  cases hs : m f s <;> cases ht : n f t <;> rw [hs, ht] at hrun
  · obtain ⟨rfl, hst⟩ := EStateM.Result.ok.inj hrun
    exact hk _ f _ _ hst
  · cases hrun
  · cases hrun
  · obtain ⟨rfl, hst⟩ := EStateM.Result.error.inj hrun
    exact congrArg (EStateM.Result.error _) hst

/-- Two steps that read something of the state first, and go on alike with what they have read. -/
theorem afterReading {m n : Lower β} {k l : ι → Lower β} (r : Frame → State → ι)
    (hread : ∀ f s t, E s = E t → k (r f s) = k (r f t)) (h : ∀ a, Alike E (k a) (l a))
    (hm : ∀ f s, m f s = k (r f s) f s) (hn : ∀ f s, n f s = l (r f s) f s) : Alike E m n := by
  intro f s t hst
  rw [hm, hn, hread f s t hst]
  exact h _ f s t hst

theorem withSession (hE : ShowsSession E) {k l : Session → Lower α} (hk : ∀ s, k s.erase = k s)
    (h : ∀ s, Alike E (k s) (l s)) : Alike E (getSession >>= k) (getSession >>= l) := by
  refine afterReading (fun _ s => s.session) (fun f s t hst => ?_) h (fun _ _ => rfl) fun _ _ => rfl
  rw [← hk s.session, hE s t hst, hk]

theorem withState {k l : State → Lower α} (hk : ∀ s, k (E s) = k s)
    (h : ∀ s, Alike E (k s) (l s)) : Alike E (MonadState.get >>= k) (MonadState.get >>= l) := by
  refine afterReading (fun _ s => s) (fun f s t hst => ?_) h (fun _ _ => rfl) fun _ _ => rfl
  rw [← hk s, hst, hk]

theorem withBlock (hE : ShowsSession E) {id : Nat} {k l : Block → Lower α}
    (hk : ∀ b, k b.erase = k b) (h : ∀ b, Alike E (k b) (l b)) :
    Alike E (getBlock id >>= k) (getBlock id >>= l) := by
  -- The step goes by the block that is found, which may be none.
  let go (k : Block → Lower α) (b : Option Block) : Lower α := b.elim (defect (.missingBlock id)) k
  have hrun (k : Block → Lower α) (f : Frame) (s : State) :
      (getBlock id >>= k) f s = go k (s.session.block? id) f s := by
    rw [run_bind, run_getBlock]
    cases s.session.block? id <;> rfl
  refine afterReading (fun _ s => s.session.block? id) (fun f s t hst => ?_) ?_ (hrun k) (hrun l)
  · have hsame := congrArg (fun u : Session => u.block? id) (hE s t hst)
    simp only [Session.block?_erase] at hsame
    cases hs : s.session.block? id <;> cases ht : t.session.block? id <;>
      simp only [hs, ht, Option.map_some, Option.map_none, Option.some.injEq, reduceCtorEq] at hsame
    · rfl
    · change k _ = k _
      rw [← hk, hsame, hk]
  · rintro (_ | b)
    · exact throw _
    · exact h b

theorem withSight (hE : ShowsSession E) {k l : Sight → Lower α} (hk : ∀ v, k v.erase = k v)
    (h : ∀ v, Alike E (k v) (l v)) : Alike E (sight >>= k) (sight >>= l) := by
  let go (k : Sight → Lower α) : Except Nat Sight → Lower α
    | .ok v => k v
    | .error id => defect (.missingBlock id)
  have hrun (k : Sight → Lower α) (f : Frame) (s : State) :
      (sight >>= k) f s = go k (sightIn f s.session) f s := by
    rw [run_bind, run_sight]
    cases sightIn f s.session <;> rfl
  refine afterReading (fun f s => sightIn f s.session) (fun f s t hst => ?_) ?_ (hrun k) (hrun l)
  · have hsame := congrArg (sightIn f) (hE s t hst)
    simp only [sightIn_erase] at hsame
    cases hs : sightIn f s.session <;> cases ht : sightIn f t.session <;> rw [hs, ht] at hsame
    · rw [Except.error.inj hsame]
    · cases hsame
    · cases hsame
    · change k _ = k _
      rw [← hk, Except.ok.inj hsame, hk]
  · rintro (id | v)
    · exact throw _
    · exact h v

end Alike

end Lowering

end Diglot
