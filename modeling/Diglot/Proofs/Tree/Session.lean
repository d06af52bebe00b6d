import Diglot.Proofs.Course.Session
import Diglot.Proofs.Tree.Basic

/-! # Properties that outlast lowering

`Lasting I` lists what has to keep a property `I` of sessions: the changes that lowering makes, the
opening of language blocks and of procedures, what is learned of a procedure behind its body, and new
classes. Then every run keeps it, also one that halts (`Course.lasts`), and so does every call that
compiles (`Fit.compile_lasts`, `Fit.watch_lasts`).
-/

set_option autoImplicit false

namespace Diglot

namespace Lowering

/-- A property of sessions that no step of lowering breaks. -/
structure Lasting (I : Session → Prop) : Prop where
  change {f : Frame} {s t : Session} : I s → Change (fun _ => True) f s t → I t
  openBlock {f : Frame} {s : Session} (dialect : Dialect) : I s → f.Placed s →
    I (s.openBlock f dialect)
  openProcedure {f : Frame} {s : Session} (p : Procedure) (message : String) : I s → f.Placed s →
    (∀ cls, Session.ownerClass f.scope = some cls → (s.classes.get? cls).isSome) →
    I (s.openProcedure f p message)
  setLocals {s : Session} (n : Nat) : I s → I (s.setLocals n)
  modifyProcedure {s : Session} (r : ProcRef) (entry : Option Nat) (locals : Nat) : I s →
    I (s.modifyProcedure r fun p => { p with entry, locals })
  appendClass {s : Session} {c : Class} {classes : ClassTable} : I s → c.symbols = {} →
    c.procedures = {} → s.classes.append? c = some classes → I { s with classes }

section
variable {I : Session → Prop} {w : Bool} {P : Instruction → Prop} {α : Type} {f : Frame} {s : State}

theorem Lasting.declareParams (hI : Lasting I) (hr : Ready w f s) (hs : I s.session)
    (params : List Argument) : I (final (declareParams params f s)) := by
  induction params generalizing s with
  | nil => exact hs
  | cons p rest ih =>
    let d : Declaration := { name := p.name, type := p.type, isParameter := true }
    have hdeclare : Change (fun _ => True) f s.session (s.session.declare f d) :=
      .declare d (hr.canDeclare d)
    obtain ⟨r, hrun, _⟩ := run_allocate (hr.canDeclare d)
    have hfirst : Lowering.declareParams (p :: rest) f s = Lowering.declareParams rest f
        { s with session := s.session.declare f d } := by
      change ((allocate d >>= fun _ => Pure.pure ()) >>= fun _ => Lowering.declareParams rest) f s = _
      simp only [run_bind, hrun, run_pure]
    rw [hfirst]
    exact ih (hr.change hdeclare) (hI.change hs hdeclare)

/-- A run keeps what lasts, however it ends. -/
theorem Course.lasts {m : Lower α} (h : Course True P f s m) (hI : Lasting I) (hr : Ready w f s)
    (hs : I s.session) : I (final (m f s)) := by
  induction h with
  | pure a => exact hs
  | bind hm _ ihm ihk =>
    refine final_bind (R := fun _ t => I t) (ihm hr hs) fun a t hrun ht => ?_
    exact ihk a t hrun (hm.ready (fun _ => hr) hrun trivial) ht
  | read => exact hs
  | get => exact hs
  | @modify f s g hsame _ =>
    change I (g s).session
    rwa [hsame]
  | defect d _ => exact hs
  | withReader hg _ ih => exact ih (hr.site hg) hs
  | @note f s level topic message =>
    exact hI.change (f := f) hs (.note level topic message)
  | @report f s issue message span _ => exact hI.change (f := f) hs (.report issue message span)
  | @halt _ f s issue message span _ => exact hI.change (f := f) hs (.report issue message span)
  | @emitWith f s i span debug _ =>
    rw [run_emitWith i span debug f s hr.canEmit]
    have hnote : I (s.session.noteEmission f (s.session.stream f.block).size { i with debug }) := by
      unfold Session.noteEmission
      split
      · exact hI.change (f := f) hs (.note ..)
      · exact hs
    refine hI.change hnote (.emit _ span trivial ?_)
    exact (Session.canEmit_noteEmission ..).mpr hr.canEmit
  | @patch f s pending target _ hp =>
    rcases patch_cases pending target f s with ⟨i, j, hi, hj, hrun⟩ | ⟨d, hrun⟩
    · rw [hrun]
      exact hI.change hs (.patch hi hj trivial)
    · rw [hrun]
      exact hs
  | @allocate f s d =>
    have hcan := hr.canDeclare d
    obtain ⟨r, hrun, _⟩ := run_allocate hcan
    rw [hrun]
    exact hI.change hs (.declare d hcan)
  | @record f s g hq => exact hI.change (f := f) hs hq.change
  | @block f s dialect body _ _ ih =>
    have hblock := hr.stands.block?_isSome
    have hinner := ih hblock (hr.openBlock dialect body)
      (hI.openBlock dialect hs hr.stands.placed)
    rw [lowerInner_run dialect body hblock]
    revert hinner
    rcases Lowering.lowerCode body _ _ with ⟨_, t⟩ | ⟨_, t⟩ <;> exact id
  | @procedure f s fn p _ _ _ ih =>
    have hblock := hr.stands.block?_isSome
    have hcls (cls : Nat) : Session.ownerClass f.scope = some cls → _ := hr.stands.ownerClass
    let message := bodyMessage fn.name s.session.blocks.size
    have hopen := hr.openProcedure p message fn.body
    have hstart := hI.openProcedure p message hs hr.stands.placed hcls
    have hinner := final_bind (R := fun _ t => I t) (k := fun _ => Lowering.lowerCode fn.body)
      (hI.declareParams hopen hstart p.args) fun _ t hrun ht => by
        have hsafe := safe_declareParams hopen p.args
        rw [hrun] at hsafe
        exact ih hblock (fun _ => hcls _) t hrun hsafe.1 ht
    rw [hr.run_lowerBody fn p]
    revert hinner
    generalize (Lowering.declareParams p.args >>= fun _ => Lowering.lowerCode fn.body) _ _ = r
    rcases r with ⟨_, t⟩ | ⟨_, t⟩
    · intro ht
      simp only [run_bind, run_getBlock]
      cases Session.block? _ s.session.blocks.size with
      | none => exact hI.setLocals _ ht
      | some b => exact hI.modifyProcedure _ _ _ (hI.setLocals _ ht)
    · exact hI.setLocals _
  | addClass c _ _ hsymbols hps _ happ => exact hI.appendClass hs hsymbols hps happ
  | inClass cls _ hp hc _ ih => exact ih (hr.inClass hp hc) hs

end

end Lowering

namespace Session

open Lowering

variable {I : Session → Prop} {s : Session}

end Session

/-! ## The blocks of a session

* `Session.IsBody s r i`: block `i` holds the body of a procedure. It has the code of the procedure, while the
  block around it has not.
* `Calls.blockTree`: once there is a block, the blocks make one tree with the first block as its root, and
  the blocks of function bodies are tied to the procedures. A procedure that is registered keeps the block
  number that it comes with, but that block does not become its body.
-/

open Lowering

namespace Session

variable {brought : Nat → Prop}

/-! ### Calls -/

/-- The first block has no parent, and the block of a later unit stands below the first one. -/
theorem IsTree.addGlobal {s : Session} (h : s.IsTree brought) (dialect : Dialect) (parent : Option Nat)
    (hparent : ∀ p, parent = some p → p < s.blocks.size) (hroot : parent = none → s.blocks.size = 0) :
    (s.addBlock .global dialect parent).IsTree brought := by
  refine h.grow ⟨hparent, s.links?_addBlock .global dialect hparent⟩ hroot (fun _ => rfl) (fun r => ?_)
    nofun nofun
  rw [if_neg fun h => by cases h.1]
  exact congrFun (bodyOf?_congr (by cases parent <;> rfl) (by cases parent <;> rfl)) r

theorem IsTree.importSymbol {s : Session} (h : s.IsTree brought) (name : String) (type : Ty)
    (library : String) : (s.importSymbol name type library).2.IsTree brought := by
  have hstart : (if s.blocks.isEmpty then s.addBlock .global .associative none else s).IsTree brought := by
    split
    · next hempty => exact h.addGlobal _ none nofun fun _ => Array.isEmpty_iff_size_eq_zero.mp hempty
    · exact h
  unfold Session.importSymbol
  generalize (if s.blocks.isEmpty then s.addBlock .global .associative none else s) = t at hstart ⊢
  refine hstart.congr ((links?_modifyBlock ?_ _ 0).trans rfl) (bodyOf?_congr rfl rfl)
  exact fun _ => rfl

theorem IsTree.unitStart {s : Session} (h : s.IsTree brought) (hfit : s.Fit) (dialect : Dialect) :
    (s.unitStart dialect).2.IsTree brought := by
  have hquiet : { s with isWatching := false }.IsTree brought := h.congr rfl (bodyOf?_congr rfl rfl)
  have hopen : (openUnit { s with isWatching := false } dialect).2.IsTree brought := by
    unfold openUnit
    split
    · split
      · next hempty =>
        exact hquiet.addGlobal dialect none nofun fun _ =>
          Array.isEmpty_iff_size_eq_zero.mp hempty
      · refine hquiet.congr (links?_modifyBlock ?_ _ 0) (bodyOf?_congr rfl rfl)
        exact fun _ => rfl
    · next hunits =>
      refine hquiet.addGlobal dialect (some 0) (fun p hp => ?_) nofun
      cases hp
      exact hfit.filled hunits
  exact hopen.congr rfl (bodyOf?_congr rfl rfl)

end Session

end Diglot
