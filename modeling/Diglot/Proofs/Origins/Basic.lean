import Diglot.Proofs.Law.Expression
import Diglot.Proofs.Origins.Mentions

/-! # What is kept while references are emitted

Some instructions refer to something outside of them: to a procedure, to a late-bound entry, or to a block
to run. A `Keeper` is a property of sessions that lowering keeps, given that it is kept where such
instructions are emitted: there the keeper may ask what was lowered right before.

* `Instruction.IsStandalone`: the instruction refers to nothing.
* `Nested w path f s`: lowering can go on in the innermost block of the path.
* `Protects K path f s m`: the run of `m` from frame `f` and state `s` keeps the property; if it stops early,
  what the keeper leaves behind holds.
* `Keeping K m`: so does every run of `m` that starts in order. One rule for each way to put steps
  together.
-/

set_option autoImplicit false

namespace Diglot

/-! ## Instructions that refer to something -/

namespace Instruction

/-- The instruction refers to a procedure, to a late-bound entry or to a block. -/
def isReference (i : Instruction) : Bool :=
  match i.opcode, i.op1 with
  | .call, _ | .callr, _ | .bounce, _ => true
  | .pushm, some (.dynamic _) => true
  | _, _ => false

/-- The instruction refers to nothing. -/
def IsStandalone (i : Instruction) : Prop := i.isReference = false

theorem isStandalone_of_opcode {i : Instruction} (hc : i.opcode ≠ .call) (hr : i.opcode ≠ .callr)
    (hb : i.opcode ≠ .bounce) (hp : i.opcode ≠ .pushm) : i.IsStandalone := by
  unfold IsStandalone isReference
  split <;> simp_all

end Instruction

namespace Lowering

/-! ## Keepers -/

/-- The blocks of the path are being lowered, the innermost first, and lowering can go on in it. -/
structure Nested (w : Bool) (path : List Nat) (f : Frame) (s : State) : Prop extends Primed w f s where
  inside : path.head? = some f.block

theorem Nested.site {w : Bool} {path : List Nat} {f g : Frame} {s : State} (h : Nested w path f s)
    (hsite : g.site = f.site) : Nested w path g s := by
  have hblock : g.block = f.block := (congrArg Frame.block hsite : g.site.block = f.site.block)
  exact ⟨h.toPrimed.site hsite, hblock ▸ h.inside⟩

theorem Nested.next {w : Bool} {path : List Nat} {f : Frame} {s t : State} (h : Nested w path f s)
    (ht : Primed w f t) : Nested w path f t := ⟨ht, h.inside⟩

/-- Lowers the arguments of a call. -/
def lowerArgs (args : List Node) : Lower Unit :=
  args.forM fun a => do
    let _ ← expression a

/-- A property of sessions that no step of lowering breaks. The calls of the source are known. -/
structure Keeper (w : Bool) where
  source : String → List Node → Prop
  /-- What holds while the blocks of a path are lowered. -/
  holds : List Nat → Session → Prop
  /-- What still holds if lowering stopped early. -/
  leaves : Session → Prop
  left {path : List Nat} {s : Session} : holds path s → leaves s
  standalone {α : Type} {path : List Nat} {f : Frame} {s : State} {m : Lower α} : Nested w path f s →
    Course True Instruction.IsStandalone f s m → holds path s.session → holds path (final (m f s))
  /-- A call is emitted for a procedure that was found before its arguments were lowered. -/
  known {path : List Nat} {f : Frame} {s t : State} {blocks : List Nat} {call : Call} {c : Cursor}
    {r : ProcRef} : Nested w path f s → source call.name call.args →
    Sight.callTarget ⟨s.session, f, blocks⟩ call.name call.args.length c = .procedure r →
    lowerArgs call.args f s = .ok () t → Nested w path f t → s.session.Advances t.session →
    holds path t.session → holds path (final (lowerKnownCall call c r f t))
  late {path : List Nat} {f : Frame} {s t : State} {call : Call} (c : Cursor) : Nested w path f s →
    source call.name call.args → lowerArgs call.args f s = .ok () t → Nested w path f t →
    holds path t.session → holds path (final (lowerLateCall call c f t))
  setter {path : List Nat} {f : Frame} {s : State} {blocks : List Nat} {cls : Option Nat}
    {property : Identifier} {r : ProcRef} (depth : Nat) (span : Span) : Nested w path f s →
    setter? ⟨s.session, f, blocks⟩ cls property = some r → holds path s.session →
    holds path (final (emitCallTo .call r depth span f s))
  member {path : List Nat} {f : Frame} {s : State} {i : Nat} (cls : Option Nat) (span : Span) :
    Nested w path f s → i < s.session.lateVariables.size → holds path s.session →
    holds path (final (emitPushm (.dynamic i) cls span f s))
  /-- Statements are lowered only while nothing is watched, and so is all that follows. -/
  patch {path : List Nat} {f : Frame} {s : State} {pending target : Nat} {i j : Instruction} :
    w = false → Nested w path f s → (s.session.stream f.block)[pending]? = some i →
    i.patch target = .ok j → holds path s.session → holds path (s.session.replaceCode f.block pending j)
  openBlock {path : List Nat} {f : Frame} {s : State} (dialect : Dialect) : w = false →
    Nested w path f s → holds path s.session →
    holds (s.session.blocks.size :: path) (s.session.openBlock f dialect)
  /-- A language block is run by the block around it. -/
  bounce {path : List Nat} {f : Frame} {t : State} {child : Nat} {b : Block} (span : Span) :
    w = false → Nested w path f t → t.session.block? child = some b → b.kind = .language →
    b.parent = some f.block → holds (child :: path) t.session →
    holds path (final (emitBounce child (b.entry.getD 0) span f t))
  openProcedure {path : List Nat} {f : Frame} {s : State} (p : Procedure) (message : String) :
    w = false → Nested w path f s → holds path s.session →
    holds (s.session.blocks.size :: path) (s.session.openProcedure f p message)
  finish {path : List Nat} {body : Nat} {s : Session} (r : ProcRef) (entry : Option Nat)
    (locals n : Nat) : w = false → s.kind? body = some .function → holds (body :: path) s →
    holds path ((s.setLocals n).modifyProcedure r fun p => { p with entry, locals })
  setLocals {s : Session} (n : Nat) : leaves s → leaves (s.setLocals n)
  addClass {path : List Nat} {s : Session} {c : Class} {classes : ClassTable} : w = false →
    c.symbols = {} → s.classes.append? c = some classes → holds path s →
    holds path { s with classes }

/-- What holds behind a run, depending on how it ended. -/
def Keeper.Ends {w : Bool} {α : Type} (K : Keeper w) (path : List Nat) :
    EStateM.Result Stop State α → Prop
  | .ok _ t => K.holds path t.session
  | .error _ t => K.leaves t.session

theorem Keeper.Ends.ofFinal {w : Bool} {α : Type} {K : Keeper w} {path : List Nat}
    {r : EStateM.Result Stop State α} (h : K.holds path (final r)) : K.Ends path r := by
  cases r with
  | ok _ _ => exact h
  | error _ _ => exact K.left h

variable {w : Bool} {K : Keeper w} {path : List Nat} {α β : Type} {f : Frame} {s : State}

/-! ## Runs that keep a property -/

theorem Course.proceeds {P : Instruction → Prop} {m : Lower α} (hm : Course True P f s m)
    (h : Primed w f s) {a : α} {t : State} (hrun : m f s = .ok a t) :
    Primed w f t ∧ s.session.Advances t.session := by
  have hadvances := hm.advances h.toReady
  rw [hrun] at hadvances
  exact ⟨(hm.primed h hrun).1, hadvances⟩

/-- A run that finishes ends in order, and the property is kept. -/
structure Protects (K : Keeper w) (path : List Nat) (f : Frame) (s : State) (m : Lower α) : Prop where
  done : ∀ a t, m f s = .ok a t → Primed w f t ∧ s.session.Advances t.session
  keeps : K.holds path s.session → K.Ends path (m f s)

namespace Protects

theorem pure (h : Primed w f s) (a : α) : Protects K path f s (Pure.pure a) := by
  refine ⟨fun b t hrun => ?_, id⟩
  cases hrun
  exact ⟨h, .refl _⟩

theorem bind {m : Lower α} {k : α → Lower β} (hm : Protects K path f s m)
    (hk : ∀ a t, m f s = .ok a t → Primed w f t → s.session.Advances t.session →
      Protects K path f t (k a)) : Protects K path f s (m >>= k) := by
  refine ⟨fun b u hrun => ?_, fun hs => ?_⟩
  · obtain ⟨a, t, ha, hb⟩ := bind_eq_ok.mp hrun
    obtain ⟨ht, hst⟩ := hm.done a t ha
    obtain ⟨hu, htu⟩ := (hk a t ha ht hst).done b u hb
    exact ⟨hu, hst.trans htu⟩
  · have hfirst := hm.keeps hs
    rw [run_bind]
    cases hrun : m f s with
    | ok a t =>
      rw [hrun] at hfirst
      obtain ⟨ht, hst⟩ := hm.done a t hrun
      exact (hk a t hrun ht hst).keeps hfirst
    | error e t =>
      rw [hrun] at hfirst
      exact hfirst

theorem withReader {g : Frame → Frame} (hg : (g f).site = f.site) {m : Lower α}
    (h : Protects K path (g f) s m) : Protects K path f s (MonadWithReader.withReader g m : Lower α) := by
  refine ⟨fun a t hrun => ?_, h.keeps⟩
  obtain ⟨ht, hst⟩ := h.done a t hrun
  exact ⟨ht.site hg.symm, hst⟩

theorem withSession {k : Session → Lower β} (hk : Protects K path f s (k s.session)) :
    Protects K path f s (getSession >>= k) := ⟨hk.done, hk.keeps⟩

theorem withFrame {k : Frame → Lower β} (hk : Protects K path f s (k f)) :
    Protects K path f s (MonadReader.read >>= k) := ⟨hk.done, hk.keeps⟩

theorem withState {k : State → Lower β} (hk : Protects K path f s (k s)) :
    Protects K path f s (MonadState.get >>= k) := ⟨hk.done, hk.keeps⟩

theorem congr {m n : Lower α} (hrun : m f s = n f s) (h : Protects K path f s n) : Protects K path f s m :=
  ⟨fun a t ha => h.done a t (hrun ▸ ha), fun hs => hrun ▸ h.keeps hs⟩

theorem stops {m : Lower α} {e : Stop} (hrun : m f s = .error e s) : Protects K path f s m := by
  refine ⟨fun a t ha => ?_, fun hs => ?_⟩
  · rw [hrun] at ha
    cases ha
  · rw [hrun]
    exact K.left hs

theorem withSymbol {r : SymbolRef} {k : Symbol → Lower β} (hk : ∀ x, Protects K path f s (k x)) :
    Protects K path f s (getSymbol r >>= k) := by
  cases hx : s.session.symbol? r with
  | some x => exact .congr (by simp [hx]) (hk x)
  | none => exact .stops (e := .defect (.missingSymbol r)) (by simp [hx])

theorem withSight {k : Sight → Lower β} (hk : ∀ blocks, Protects K path f s (k ⟨s.session, f, blocks⟩)) :
    Protects K path f s (sight >>= k) := by
  cases hv : sightIn f s.session with
  | ok v =>
    have hrun : sight f s = .ok v s := by rw [run_sight, hv]
    obtain ⟨_, heq, _⟩ := sight_eq_ok.mp hrun
    have hk := hk v.blocks
    rw [← heq] at hk
    exact .congr (by rw [run_bind, hrun]) hk
  | error id =>
    have hrun : sight f s = .error (.defect (.missingBlock id)) s := by rw [run_sight, hv]
    exact .stops (by rw [run_bind, hrun])

/-- A run with a course, behind which the property still holds. -/
theorem ofCourse {P : Instruction → Prop} {m : Lower α} (h : Primed w f s) (hm : Course True P f s m)
    (hkeeps : K.holds path s.session → K.holds path (final (m f s))) : Protects K path f s m :=
  ⟨fun _ _ => hm.proceeds h, fun hs => .ofFinal (hkeeps hs)⟩

/-- A run that emits no reference. -/
theorem plain {m : Lower α} (h : Nested w path f s) (hm : Course True Instruction.IsStandalone f s m) :
    Protects K path f s m := .ofCourse h.toPrimed hm (K.standalone h hm)

/-- A run that emits nothing. -/
theorem quiet {m : Lower α} (h : Nested w path f s) (hm : Course True (fun _ => False) f s m) :
    Protects K path f s m := .plain h (hm.mono fun _ hi => hi.elim)

theorem silent {m : Lower α} (h : Nested w path f s) (hm : Composed w True (fun _ => False) m) :
    Protects K path f s m := .quiet h (hm f s fun _ => h.toReady)

theorem forM {l : List β} {k : β → Lower Unit} (h : Nested w path f s)
    (hk : ∀ b ∈ l, ∀ t, Nested w path f t → Protects K path f t (k b)) : Protects K path f s (l.forM k) := by
  induction l generalizing s with
  | nil => exact .pure h.toPrimed ()
  | cons b rest ih =>
    refine .bind (hk b (List.mem_cons_self ..) s h) fun _ t _ ht _ => ih (h.next ht) fun a ha => hk a ?_
    exact List.mem_cons_of_mem b ha

end Protects

/-! ## Steps that keep a property wherever they start -/

/-- Every run of the step that starts in order keeps the property. -/
def Keeping (K : Keeper w) (m : Lower α) : Prop := ∀ path f s, Nested w path f s → Protects K path f s m

namespace Keeping

theorem pure (a : α) : Keeping K (Pure.pure a : Lower α) := fun _ _ _ h => .pure h.toPrimed a

theorem bind {m : Lower α} {k : α → Lower β} (hm : Keeping K m) (hk : ∀ a, Keeping K (k a)) :
    Keeping K (m >>= k) :=
  fun path f s h => .bind (hm path f s h) fun a t _ ht _ => hk a path f t (h.next ht)

theorem ite {c : Prop} [Decidable c] {m n : Lower α} (hm : Keeping K m) (hn : Keeping K n) :
    Keeping K (if c then m else n) := by
  split
  · exact hm
  · exact hn

theorem onlyIf {c : Prop} [Decidable c] {m : Lower β} {k : Lower α} (hm : Keeping K m)
    (hk : Keeping K k) : Keeping K (if c then m >>= fun _ => k else k) :=
  ite (bind hm fun _ => hk) hk

theorem withReader {g : Frame → Frame} (hg : ∀ f, (g f).site = f.site) {m : Lower α}
    (h : Keeping K m) : Keeping K (MonadWithReader.withReader g m : Lower α) :=
  fun path f s hs => .withReader (hg f) (h path (g f) s (hs.site (hg f)))

theorem forM {l : List β} {k : β → Lower Unit} (h : ∀ b ∈ l, Keeping K (k b)) :
    Keeping K (l.forM k) := fun path f _ hs => .forM hs fun b hb t ht => h b hb path f t ht

/-- A step that emits nothing. -/
theorem silent {m : Lower α} (hm : Composed w True (fun _ => False) m) : Keeping K m :=
  fun _ _ _ h => .silent h hm

/-- A step that emits no reference. -/
theorem plain {m : Lower α} (hm : Composed w True Instruction.IsStandalone m) : Keeping K m :=
  fun _ f s h => .plain h (hm f s fun _ => h.toReady)

theorem unguided {m : Lower α} (h : Keeping K m) : Keeping K (unguided m) := by
  refine .withReader ?_ h
  exact fun _ => rfl

theorem guidedCall {m : Lower α} (h : Keeping K m) : Keeping K (guidedCall m) := by
  refine .bind (.silent .getSession) fun s => .withReader ?_ h
  exact fun _ => rfl

end Keeping

end Lowering

end Diglot
