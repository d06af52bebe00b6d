import Diglot.Proofs.Debug.Erasure
import Diglot.Proofs.Law.Widening

/-! # Laws of emitted code

A `Law` says which instructions may stand in code that runs in the scope of a class. It only has to
know about instructions that address a member or name a procedure, and these are emitted for what a
name was found to stand for.

* `Primed`: lowering can go on, and names are found where the tables list them.
* `Session.Carries`: the code of a session, each instruction with the class scope that it runs in.
* `Law.Holds`: all code of a session is as the law wants it.
* `Heeds L o f s m`: the run of `m` from frame `f` and state `s` keeps the law, however it ends.
* `Heeding L o m`: so does every run of `m` that starts in order, in a frame whose class scope is that
  of its procedure. One rule for each way to put steps together, and one lemma for each emitter.
-/

set_option autoImplicit false

namespace Diglot

open Lowering

/-! ## Instructions that a law may restrict -/

namespace Operand

/-- The operand addresses a variable. -/
def isVariable : Operand → Bool
  | var _ | memVar _ | staticVar _ => true
  | _ => false

/-- The operand neither addresses a variable nor names a procedure. -/
def isNeutral (o : Operand) : Bool :=
  !o.isVariable &&
    match o with
    | function (some _) => false
    | _ => true

end Operand

namespace Instruction

/-- The instruction neither addresses a variable nor names a procedure. -/
def IsNeutral (i : Instruction) : Prop := ∀ o ∈ i.operands, o.isNeutral = true

theorem isNeutral_bare (op : OpCode) : (bare op).IsNeutral := by
  intro o ho
  cases ho

theorem isNeutral_unary (op : OpCode) {a : Operand} (ha : a.isNeutral = true) :
    (unary op a).IsNeutral := by
  intro o ho
  simp only [unary, operands, Option.toList_some, Option.toList_none, List.append_nil,
    List.mem_singleton] at ho
  rwa [ho]

theorem isNeutral_binary (op : OpCode) {a b : Operand} (ha : a.isNeutral = true)
    (hb : b.isNeutral = true) : (binary op a b).IsNeutral := by
  intro o ho
  simp only [binary, operands, Option.toList_some, Option.toList_none, List.append_nil,
    List.cons_append, List.nil_append, List.mem_cons, List.not_mem_nil, or_false] at ho
  rcases ho with rfl | rfl
  · exact ha
  · exact hb

theorem isNeutral_ternary (op : OpCode) {a b c : Operand} (ha : a.isNeutral = true)
    (hb : b.isNeutral = true) (hc : c.isNeutral = true) : (ternary op a b c).IsNeutral := by
  intro o ho
  simp only [ternary, operands, Option.toList_some, List.cons_append, List.nil_append,
    List.mem_cons, List.not_mem_nil, or_false] at ho
  rcases ho with rfl | rfl | rfl
  · exact ha
  · exact hb
  · exact hc

/-- The instruction is the given one, with whatever debug record. -/
def IsOf (j i : Instruction) : Prop := ∃ debug, j = { i with debug }

/-- The instruction reads the variable, alone or as a segment of a chain, or stores into it, be it the
value of a watch expression. -/
inductive Accesses (x : Symbol) (i : Instruction) : Prop where
  | alone (cls : Option Nat) (dims : Nat) :
      i.IsOf (.ternary .push (.ofSymbol x) (.cls cls) (.arrayDim dims)) → Accesses x i
  | segment (block : Nat) :
      i.IsOf (.ternary .pushm (.ofSymbol x) (.cls x.classScope) (.block block)) → Accesses x i
  | store (dims : Nat) :
      i.IsOf (.ternary .pop (.ofSymbol x) (.cls x.classScope) (.arrayDim dims)) → Accesses x i
  | watched : i.IsOf (.binary .popw (.ofSymbol x) (.cls x.classScope)) → Accesses x i

/-- The instruction calls the procedure, with `depth` segments of a chain before it. -/
def Calls (r : ProcRef) (op : OpCode) (depth : Nat) (i : Instruction) : Prop :=
  i.IsOf (.ternary op (.function (some r.index)) (.cls r.classScope) (.int (Operand.clamp depth)))

end Instruction

namespace Lowering

/-- The symbol is what the code finds behind some name, from its place or in a class. -/
inductive Sight.Binds (v : Sight) (r : SymbolRef) : Prop where
  | plain (name : String) : v.resolve name = .found r → Binds v r
  | member (cls : Nat) (name : String) : v.inClass cls name = .found r → Binds v r

theorem Sight.Binds.ofTarget {v : Sight} {name : String} {c : Cursor} {r : SymbolRef}
    (h : v.segmentTarget name c = .symbol r) : v.Binds r := by
  unfold segmentTarget at h
  split at h
  · unfold rootTarget at h
    dsimp only at h
    split at h
    · split at h <;> cases h
    · split at h
      · next hfound =>
        cases h
        exact .plain name hfound
      · cases h
      · split at h <;> cases h
  · unfold memberTarget at h
    split at h
    · cases h
    · split at h
      · cases h
      · split at h
        · next hfound =>
          cases h
          exact .member _ name hfound
        · cases h
        · cases h

/-- The procedure is what the code finds to call, by name or to store a member. -/
inductive Sight.Reaches (v : Sight) (r : ProcRef) : OpCode → Nat → Prop where
  | call (name : String) (arity : Nat) (c : Cursor) : v.callTarget name arity c = .procedure r →
      Reaches v r .callr c.depth
  | setter (cls : Option Nat) (property : Identifier) (depth : Nat) :
      setter? v cls property = some r → Reaches v r .call depth

/-- Lowering can go on, and all tables list the positions of their names. -/
structure Primed (w : Bool) (f : Frame) (s : State) : Prop extends Ready w f s where
  listed : s.session.Listed

theorem Primed.site {w : Bool} {f g : Frame} {s : State} (h : Primed w f s) (hsite : g.site = f.site) :
    Primed w g s := ⟨h.toReady.site hsite, h.listed⟩

theorem Primed.widens {w : Bool} {f g : Frame} {s t : State} (h : Primed w f s) (ht : Ready w g t)
    (hst : s.session.Widens t.session) : Primed w g t := ⟨ht, hst.listed h.listed⟩

/-- The class scope of the code is that of its procedure. -/
def Frame.IsOwn (f : Frame) : Prop := f.scope.classScope = f.scope.procedure.bind ProcRef.classScope

theorem Frame.IsOwn.site {f g : Frame} (h : f.IsOwn) (hsite : g.site = f.site) : g.IsOwn := by
  have hscope : g.scope = f.scope := (congrArg Frame.scope hsite : g.site.scope = f.site.scope)
  unfold IsOwn
  rw [hscope]
  exact h

/-- What the code declares belongs to its block: it is code of no class, or of a procedure. -/
def Frame.DeclaresLocals (f : Frame) : Prop := f.scope.procedure = none → f.scope.classScope = none

theorem Frame.DeclaresLocals.site {f g : Frame} (h : f.DeclaresLocals) (hsite : g.site = f.site) :
    g.DeclaresLocals := by
  have hscope : g.scope = f.scope := (congrArg Frame.scope hsite : g.site.scope = f.site.scope)
  unfold DeclaresLocals
  rw [hscope]
  exact h

theorem Frame.IsOwn.declaresLocals {f : Frame} (h : f.IsOwn) : f.DeclaresLocals := by
  intro hnone
  have hcls : f.scope.classScope = f.scope.procedure.bind ProcRef.classScope := h
  rw [hcls, hnone]
  rfl

end Lowering

/-! ## Laws -/

/-- Which instructions may stand in code that runs in the scope of a class. What is allowed stays so
while the session widens. Instructions that address variables and name procedures are allowed where the
code finds these, or declares the variable. -/
structure Law where
  allows : Option Nat → Session → Instruction → Prop
  widens {ctx : Option Nat} {s t : Session} {i : Instruction} : s.Widens t → allows ctx s i →
    allows ctx t i
  patch {ctx : Option Nat} {s : Session} {i j : Instruction} {target : Nat} :
    i.patch target = .ok j → allows ctx s i → allows ctx s j
  neutral {ctx : Option Nat} {s : Session} {i : Instruction} : i.IsNeutral → allows ctx s i
  declared {ctx : Option Nat} {s : Session} {id k : Nat} {x : Symbol} {i : Instruction} :
    s.symbol? ⟨.block id, k⟩ = some x → x.isMember = false → i.Accesses x → allows ctx s i
  access {w : Bool} {f : Frame} {s : State} {blocks : List Nat} {r : SymbolRef} {x : Symbol}
    {i : Instruction} : Primed w f s → f.IsOwn → Sight.Binds ⟨s.session, f, blocks⟩ r →
    s.session.symbol? r = some x → i.Accesses x → allows f.scope.classScope s.session i
  call {w : Bool} {f : Frame} {s : State} {blocks : List Nat} {r : ProcRef} {op : OpCode}
    {depth : Nat} {i : Instruction} : Primed w f s → f.IsOwn →
    Sight.Reaches ⟨s.session, f, blocks⟩ r op depth → i.Calls r op depth →
    allows f.scope.classScope s.session i

/-- Which code there is to tell of: that of the blocks and, while a watch expression is lowered, the watch
code from a place on, which runs in the scope of a class. -/
structure Stage where
  isWatching : Bool
  start : Nat := 0
  scope : Option Nat := none

namespace Session

/-- The code has the instruction, which runs in the scope `ctx`. -/
inductive Carries (s : Session) (o : Stage) : Option Nat → Instruction → Prop where
  | block {id : Nat} {b : Block} {i : Instruction} : s.block? id = some b → i ∈ b.code →
      Carries s o (b.procedure.bind ProcRef.classScope) i
  | watch {j : Nat} {i : Instruction} : o.isWatching = true → o.start ≤ j → s.watch[j]? = some i →
      Carries s o o.scope i

end Session

/-- All code is as the law wants it. -/
def Law.Holds (L : Law) (o : Stage) (s : Session) : Prop :=
  ∀ ctx i, s.Carries o ctx i → L.allows ctx s i

namespace Law.Holds

variable {L : Law} {o : Stage} {s t : Session}

/-- Code that was there before, or is allowed now. -/
theorem widens (h : L.Holds o s) (hst : s.Widens t)
    (hnew : ∀ ctx i, t.Carries o ctx i → s.Carries o ctx i ∨ L.allows ctx t i) : L.Holds o t := by
  intro ctx i hi
  rcases hnew ctx i hi with hold | hallowed
  · exact L.widens hst (h ctx i hold)
  · exact hallowed

/-- Tables may change, and blocks without code may come. -/
theorem ofText (h : L.Holds o s) (hst : s.Widens t) (hw : t.watch = s.watch)
    (htext : ∀ id k code, t.text id = some (k, code) → code = #[] ∨ s.text id = some (k, code)) :
    L.Holds o t := by
  refine h.widens hst fun ctx i hi => .inl ?_
  cases hi with
  | @block id b i hid hi =>
    have hb : t.text id = some (b.kind, b.code) := by rw [Session.text, hid, Option.map_some]
    rcases htext id b.kind b.code hb with hempty | hold
    · rw [hempty] at hi
      exact absurd hi (Array.not_mem_empty _)
    · obtain ⟨b', hb', heq⟩ := Option.map_eq_some_iff.mp hold
      have hcode : b'.code = b.code := (Prod.mk.inj heq).2
      obtain ⟨hd, hhd, hproc⟩ := hst.keeps id _ (Session.header?_of_block? hb')
      rw [Session.header?_of_block? hid] at hhd
      cases hhd
      have hprocedure : b.procedure = b'.procedure := hproc
      rw [hprocedure]
      exact .block hb' (hcode ▸ hi)
  | watch hon hj hi => exact .watch hon hj (hw ▸ hi)

end Law.Holds

namespace Lowering

variable {L : Law} {o : Stage} {α β : Type} {f : Frame} {s : State}

/-! ## Runs that keep a law -/

/-- A run in order, in a frame of its own scope; while watching, in the scope of the watch code. -/
structure Poised (o : Stage) (f : Frame) (s : State) : Prop where
  ready : Primed o.isWatching f s
  own : f.IsOwn
  scope : o.isWatching = true → f.scope.classScope = o.scope

theorem Poised.next {t : State} (h : Poised o f s) (ht : Primed o.isWatching f t) : Poised o f t :=
  ⟨ht, h.own, h.scope⟩

theorem Poised.site {g : Frame} (h : Poised o f s) (hsite : g.site = f.site) : Poised o g s := by
  have hscope : g.scope = f.scope := (congrArg Frame.scope hsite : g.site.scope = f.site.scope)
  exact ⟨h.ready.site hsite, h.own.site hsite, hscope ▸ h.scope⟩

/-- New code behind a run is what the run wrote, in the scope of its frame. -/
theorem carries_of_wrote {P : Instruction → Prop} {m : Lower α} (hr : Ready o.isWatching f s)
    (hm : Course True P f s m) (hP : ¬ ∀ i, P i) {ctx : Option Nat} {i : Instruction}
    (hi : (final (m f s)).Carries o ctx i) :
    s.session.Carries o ctx i ∨ P i ∧ (Poised o f s → ctx = f.scope.classScope) := by
  have hwidens := hm.widens hr
  obtain ⟨l, hl, hw⟩ := hm.wrote hP
  cases hi with
  | @block id b i hid hi =>
    -- Blocks keep their procedures, and only the block of the frame may have new code.
    have htext : (final (m f s)).text id = some (b.kind, b.code) := by
      unfold Session.text
      rw [hid, Option.map_some]
    have hkept {b' : Block} (hb' : s.session.block? id = some b') : b.procedure = b'.procedure := by
      obtain ⟨hd, hhd, hproc⟩ := hwidens.keeps id _ (Session.header?_of_block? hb')
      rw [Session.header?_of_block? hid] at hhd
      cases hhd
      exact hproc
    have hold (hsame : s.session.text id = some (b.kind, b.code)) :
        s.session.Carries o (b.procedure.bind ProcRef.classScope) i := by
      obtain ⟨b', hb', heq⟩ := Option.map_eq_some_iff.mp hsame
      have hcode : b'.code = b.code := (Prod.mk.inj heq).2
      rw [hkept hb']
      exact .block hb' (hcode ▸ hi)
    by_cases hown : id = f.block
    · subst hown
      have htext' := hw.own.symm.trans htext
      split at htext'
      · exact .inl (hold htext')
      · obtain ⟨p, hp, heq⟩ := Option.map_eq_some_iff.mp htext'
        obtain ⟨b', hb', rfl⟩ := Option.map_eq_some_iff.mp hp
        have hcode : b'.code ++ l = b.code := (Prod.mk.inj heq).2
        rw [← hcode] at hi
        rcases Array.mem_append.mp hi with hi | hi
        · rw [hkept hb']
          exact .inl (.block hb' hi)
        · refine .inr ⟨hl i hi, fun h => ?_⟩
          obtain ⟨hd, hhd, hproc⟩ := hr.stands.placed.block
          rw [Session.header?_of_block? hb'] at hhd
          cases hhd
          rw [hkept hb', h.own]
          exact congrArg (fun r => r.bind ProcRef.classScope) hproc
    · exact .inl (hold (hw.others id hown ▸ htext))
  | @watch j i hon hj hi =>
    rw [hw.watch] at hi
    split at hi
    · next hwatching =>
      rw [Array.getElem?_append] at hi
      split at hi
      · exact .inl (.watch hon hj hi)
      · exact .inr ⟨hl i (Array.mem_of_getElem? hi), fun h => (h.scope (hr.mode ▸ hwatching)).symm⟩
    · exact .inl (.watch hon hj hi)

theorem Course.primed {w : Bool} {P : Instruction → Prop} {m : Lower α} (hm : Course True P f s m)
    (hr : Primed w f s) {a : α} {t : State} (hrun : m f s = .ok a t) :
    Primed w f t ∧ s.session.Widens t.session := by
  have hwidens := hm.widens hr.toReady
  rw [hrun] at hwidens
  exact ⟨hr.widens (hm.ready (fun _ => hr.toReady) hrun trivial) hwidens, hwidens⟩

/-- A run that finishes ends in order, and however it ends, the law still holds. -/
structure Heeds (L : Law) (o : Stage) (f : Frame) (s : State) (m : Lower α) : Prop where
  done : ∀ a t, m f s = .ok a t → Primed o.isWatching f t ∧ s.session.Widens t.session
  keeps : L.Holds o s.session → L.Holds o (final (m f s))

namespace Heeds

theorem pure (h : Primed o.isWatching f s) (a : α) : Heeds L o f s (Pure.pure a) := by
  refine ⟨fun b t hrun => ?_, id⟩
  cases hrun
  exact ⟨h, .refl _⟩

theorem bind {m : Lower α} {k : α → Lower β} (hm : Heeds L o f s m)
    (hk : ∀ a t, m f s = .ok a t → Primed o.isWatching f t → s.session.Widens t.session →
      Heeds L o f t (k a)) : Heeds L o f s (m >>= k) := by
  refine ⟨fun b u hrun => ?_, fun hs => ?_⟩
  · obtain ⟨a, t, ha, hb⟩ := bind_eq_ok.mp hrun
    obtain ⟨ht, hst⟩ := hm.done a t ha
    obtain ⟨hu, htu⟩ := (hk a t ha ht hst).done b u hb
    exact ⟨hu, hst.trans htu⟩
  · have hfirst := hm.keeps hs
    rw [run_bind]
    cases hrun : m f s with
    | ok a t =>
      rw [hrun] at hfirst
      obtain ⟨ht, hst⟩ := hm.done a t hrun
      exact (hk a t hrun ht hst).keeps hfirst
    | error e t =>
      rw [hrun] at hfirst
      exact hfirst

theorem withReader {g : Frame → Frame} (hg : (g f).site = f.site) {m : Lower α}
    (h : Heeds L o (g f) s m) : Heeds L o f s (MonadWithReader.withReader g m : Lower α) := by
  refine ⟨fun a t hrun => ?_, h.keeps⟩
  obtain ⟨ht, hst⟩ := h.done a t hrun
  exact ⟨ht.site hg.symm, hst⟩

theorem withSession {k : Session → Lower β} (hk : Heeds L o f s (k s.session)) :
    Heeds L o f s (getSession >>= k) := ⟨hk.done, hk.keeps⟩

theorem withFrame {k : Frame → Lower β} (hk : Heeds L o f s (k f)) :
    Heeds L o f s (MonadReader.read >>= k) := ⟨hk.done, hk.keeps⟩

theorem withState {k : State → Lower β} (hk : Heeds L o f s (k s)) :
    Heeds L o f s (MonadState.get >>= k) := ⟨hk.done, hk.keeps⟩

theorem congr {m n : Lower α} (hrun : m f s = n f s) (h : Heeds L o f s n) : Heeds L o f s m :=
  ⟨fun a t ha => h.done a t (hrun ▸ ha), fun hs => hrun ▸ h.keeps hs⟩

theorem stops {m : Lower α} {e : Stop} (hrun : m f s = .error e s) : Heeds L o f s m := by
  refine ⟨fun a t ha => ?_, fun hs => ?_⟩
  · rw [hrun] at ha
    cases ha
  · rw [hrun]
    exact hs

theorem withSymbol {r : SymbolRef} {k : Symbol → Lower β}
    (hk : ∀ x, s.session.symbol? r = some x → Heeds L o f s (k x)) :
    Heeds L o f s (getSymbol r >>= k) := by
  cases hx : s.session.symbol? r with
  | some x => exact .congr (by simp [hx]) (hk x hx)
  | none => exact .stops (e := .defect (.missingSymbol r)) (by simp [hx])

theorem withBlock {id : Nat} {k : Block → Lower β}
    (hk : ∀ b, s.session.block? id = some b → Heeds L o f s (k b)) :
    Heeds L o f s (getBlock id >>= k) := by
  cases hb : s.session.block? id with
  | some b => exact .congr (by simp [hb]) (hk b hb)
  | none => exact .stops (e := .defect (.missingBlock id)) (by simp [hb])

theorem withSight {k : Sight → Lower β}
    (hk : ∀ blocks, Heeds L o f s (k ⟨s.session, f, blocks⟩)) : Heeds L o f s (sight >>= k) := by
  cases hv : sightIn f s.session with
  | ok v =>
    have hrun : sight f s = .ok v s := by rw [run_sight, hv]
    obtain ⟨_, heq, _⟩ := sight_eq_ok.mp hrun
    have hk := hk v.blocks
    rw [← heq] at hk
    exact .congr (by rw [run_bind, hrun]) hk
  | error id =>
    have hrun : sight f s = .error (.defect (.missingBlock id)) s := by rw [run_sight, hv]
    exact .stops (by rw [run_bind, hrun])

/-- A run that only writes instructions which the law allows, to the end of the code. -/
theorem ofWrote {P : Instruction → Prop} {m : Lower α} (h : Poised o f s)
    (hm : Course True P f s m) (hP : ¬ ∀ i, P i)
    (hallowed : ∀ t i, s.session.Widens t → P i → L.allows f.scope.classScope t i) :
    Heeds L o f s m := by
  refine ⟨fun a t => hm.primed h.ready, fun hs => ?_⟩
  have hwidens := hm.widens h.ready.toReady
  refine hs.widens hwidens fun ctx i hi => ?_
  refine (carries_of_wrote h.ready.toReady hm hP hi).imp_right fun hnew => ?_
  rw [hnew.2 h]
  exact hallowed _ i hwidens hnew.1

/-- A run that writes no code, in whatever frame. -/
theorem quiet {m : Lower α} (hr : Primed o.isWatching f s)
    (hm : Course True (fun _ => False) f s m) : Heeds L o f s m := by
  refine ⟨fun a t => hm.primed hr, fun hs => hs.widens (hm.widens hr.toReady) fun ctx i hi => ?_⟩
  refine (carries_of_wrote hr.toReady hm (fun h => h default) hi).imp_right fun hnew => ?_
  exact hnew.1.elim

theorem silent {m : Lower α} (hr : Primed o.isWatching f s)
    (hm : Composed o.isWatching True (fun _ => False) m) : Heeds L o f s m :=
  .quiet hr (hm f s fun _ => hr.toReady)

theorem forM {l : List β} {k : β → Lower Unit} (hr : Primed o.isWatching f s)
    (h : ∀ b ∈ l, ∀ t, Primed o.isWatching f t → Heeds L o f t (k b)) : Heeds L o f s (l.forM k) := by
  induction l generalizing s with
  | nil => exact .pure hr ()
  | cons b rest ih =>
    refine .bind (h b (List.mem_cons_self ..) s hr) fun _ t _ ht _ => ih ht fun a ha => h a ?_
    exact List.mem_cons_of_mem b ha

end Heeds

/-! ## Steps that keep a law wherever they start -/

/-- Every run of the step that starts in order keeps the law. -/
def Heeding (L : Law) (o : Stage) (m : Lower α) : Prop := ∀ f s, Poised o f s → Heeds L o f s m

namespace Heeding

theorem pure (a : α) : Heeding L o (Pure.pure a : Lower α) := fun _ _ h => .pure h.ready a

theorem bind {m : Lower α} {k : α → Lower β} (hm : Heeding L o m) (hk : ∀ a, Heeding L o (k a)) :
    Heeding L o (m >>= k) :=
  fun f s h => .bind (hm f s h) fun a t _ ht _ => hk a f t (h.next ht)

theorem ite {c : Prop} [Decidable c] {m n : Lower α} (hm : Heeding L o m) (hn : Heeding L o n) :
    Heeding L o (if c then m else n) := by
  split
  · exact hm
  · exact hn

theorem onlyIf {c : Prop} [Decidable c] {m : Lower β} {k : Lower α} (hm : Heeding L o m)
    (hk : Heeding L o k) : Heeding L o (if c then m >>= fun _ => k else k) :=
  ite (bind hm fun _ => hk) hk

theorem withReader {g : Frame → Frame} (hg : ∀ f, (g f).site = f.site) {m : Lower α}
    (h : Heeding L o m) : Heeding L o (MonadWithReader.withReader g m : Lower α) :=
  fun f s hs => .withReader (hg f) (h (g f) s (hs.site (hg f)))

theorem forM {l : List β} {k : β → Lower Unit} (h : ∀ b ∈ l, Heeding L o (k b)) :
    Heeding L o (l.forM k) :=
  fun f _ hs => .forM hs.ready fun b hb t ht => h b hb f t (hs.next ht)

/-- A step that writes no code. -/
theorem silent {m : Lower α} (hm : Composed o.isWatching True (fun _ => False) m) : Heeding L o m :=
  fun _ _ h => .silent h.ready hm

/-- A step that writes neutral instructions only. -/
theorem neutral {m : Lower α} (hm : Composed o.isWatching True Instruction.IsNeutral m) :
    Heeding L o m := by
  intro f s h
  refine .ofWrote h (hm f s fun _ => h.ready.toReady) (fun hall => ?_) fun t i _ hi => L.neutral hi
  have := hall (.unary .push (.memVar 0)) (.memVar 0) (List.mem_singleton.mpr rfl)
  cases this

end Heeding

/-- A step that writes one instruction, with whatever debug record. -/
theorem Heeds.writes {i : Instruction} {m : Lower α} (h : Poised o f s)
    (hm : Composed o.isWatching True (·.IsOf i) m)
    (hallowed : ∀ j, j.IsOf i → L.allows f.scope.classScope s.session j) : Heeds L o f s m := by
  refine .ofWrote h (hm f s fun _ => h.ready.toReady) (fun hall => ?_) fun t j hst hj =>
    L.widens hst (hallowed j hj)
  obtain ⟨_, hret⟩ := hall (.bare .ret)
  obtain ⟨_, hretb⟩ := hall (.bare .retb)
  have hop : OpCode.ret = OpCode.retb :=
    (congrArg Instruction.opcode hret).trans (congrArg Instruction.opcode hretb).symm
  cases hop

/-- A step that accesses a symbol. -/
theorem Heeds.accesses {x : Symbol} {m : Lower α} (h : Poised o f s)
    (hm : Composed o.isWatching True (·.Accesses x) m)
    (hallowed : ∀ j : Instruction, j.Accesses x → L.allows f.scope.classScope s.session j) :
    Heeds L o f s m := by
  refine .ofWrote h (hm f s fun _ => h.ready.toReady) (fun hall => ?_) fun t j hst hj =>
    L.widens hst (hallowed j hj)
  obtain ⟨_, _, _, hret⟩ | ⟨_, _, hret⟩ | ⟨_, _, hret⟩ | ⟨_, hret⟩ := hall (.bare .ret)
  all_goals cases congrArg Instruction.opcode hret

end Lowering

end Diglot
