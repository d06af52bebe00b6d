import Diglot.Proofs.Mild.Expression

/-! # Statements do not see the debug switches

`Blind m`: two runs of `m` from states that differ only in what a debugger needs return the same and end
in states that differ only there. Mild steps are blind (`Mild.blind`). What is left are the steps that
open blocks, patch jumps and finish dependency nodes, and the statements made of them.
-/

set_option autoImplicit false

namespace Diglot

open Lowering

namespace Session

variable (s : Session)

theorem erase_modifyProcedure (r : ProcRef) (g : Procedure → Procedure) :
    (s.modifyProcedure r g).erase = s.erase.modifyProcedure r g := by
  unfold modifyProcedure
  split <;> rfl

theorem erase_replaceCode (block pc : Nat) (i : Instruction) :
    (s.replaceCode block pc i).erase = s.erase.replaceCode block pc i.erase := by
  have hset (code : Array Instruction) :
      (code.setIfInBounds pc i).map Instruction.erase =
        (code.map Instruction.erase).setIfInBounds pc i.erase := by
    simp
  unfold replaceCode
  change _ = if s.isWatching then _ else _
  split
  · simp only [erase, hset]
  · refine s.erase_modifyBlock (fun b => ?_) block
    simp only [Block.erase, hset]

end Session

theorem Instruction.patch_erase (i : Instruction) (target : Nat) :
    i.erase.patch target = (i.patch target).map Instruction.erase := by
  have hjump : i.erase.jumpTarget? = i.jumpTarget? := rfl
  have hretarget (o : Operand) : i.erase.retarget o = (i.retarget o).erase := by
    have hopcode : i.erase.opcode = i.opcode := rfl
    simp only [retarget, hopcode]
    split <;> rfl
  unfold patch
  rw [hjump, hretarget]
  change (if !i.opcode.isJump then _ else _) = _
  split
  · rfl
  · split <;> rfl

namespace Lowering

variable {α β : Type}

theorem showsSession_erase : ShowsSession State.erase := fun _ _ h => congrArg State.session h

/-- Whatever a debugger needs, the step does the same. -/
def Blind (m : Lower α) : Prop := Alike State.erase m m

theorem State.erase_eq_of_bare {u v : State} (h : u.bare = v.bare)
    (hp : u.pointers = v.pointers) : u.erase = v.erase := by
  have herase (w : State) : w.erase = { w.bare with pointers := w.pointers } := rfl
  rw [herase, herase, h, hp]

theorem Mild.blind {m : Lower α} (h : Tame false false m) : Blind m := by
  intro f s t hst
  have hbare : s.bare = t.bare := congrArg (fun u : State => { u with pointers := [] }) hst
  have hpointers := congrArg State.pointers hst
  -- The remembered segments, which `bare` leaves out, are kept by both runs.
  have hpair {u v : State} (huv : u.bare = v.bare) (hu : Kept false s u) (hv : Kept false t v) :
      u.erase = v.erase :=
    State.erase_eq_of_bare huv (hu.pointers.trans (hpointers.trans hv.pointers.symm))
  have hrun := h.alike f s t hbare
  have hs := h.keeps f s
  have ht := h.keeps f t
  cases hms : m f s <;> cases hmt : m f t <;> rw [hms, hmt] at hrun <;> rw [hms] at hs <;>
    rw [hmt] at ht
  · obtain ⟨rfl, huv⟩ := EStateM.Result.ok.inj hrun
    exact congrArg (EStateM.Result.ok _) (hpair huv hs ht)
  · cases hrun
  · cases hrun
  · obtain ⟨rfl, huv⟩ := EStateM.Result.error.inj hrun
    exact congrArg (EStateM.Result.error _) (hpair huv hs ht)

namespace Blind

theorem pure (a : α) : Blind (Pure.pure a : Lower α) := Alike.pure a

theorem bind {m : Lower α} {k : α → Lower β} (hm : Blind m) (hk : ∀ a, Blind (k a)) :
    Blind (m >>= k) := Alike.bind hm hk

theorem after {m : Lower α} {k : α → Lower β} (hm : Tame false false m)
    (hk : ∀ a, Blind (k a)) : Blind (m >>= k) := bind hm.blind hk

theorem ite {c : Prop} [Decidable c] {m n : Lower α} (hm : Blind m) (hn : Blind n) :
    Blind (if c then m else n) := by
  split
  · exact hm
  · exact hn

theorem onlyIf {c : Prop} [Decidable c] {m : Lower β} {k : Lower α} (hm : Blind m) (hk : Blind k) :
    Blind (if c then m >>= fun _ => k else k) := ite (bind hm fun _ => hk) hk

theorem withReader (g : Frame → Frame) {m : Lower α} (h : Blind m) :
    Blind (MonadWithReader.withReader g m : Lower α) := fun f => h (g f)

theorem forM {l : List α} {k : α → Lower Unit} (h : ∀ a ∈ l, Blind (k a)) : Blind (l.forM k) := by
  induction l with
  | nil => exact pure ()
  | cons a rest ih =>
    exact bind (h a (List.mem_cons_self ..)) fun _ => ih fun b hb => h b (List.mem_cons_of_mem a hb)

theorem withSession {k : Session → Lower α} (hk : ∀ s, k s.erase = k s) (h : ∀ s, Blind (k s)) :
    Blind (getSession >>= k) := Alike.withSession showsSession_erase hk h

theorem withState {k : State → Lower α} (hk : ∀ s, k s.erase = k s) (h : ∀ s, Blind (k s)) :
    Blind (MonadState.get >>= k) := Alike.withState hk h

theorem withBlock {id : Nat} {k : Block → Lower α} (hk : ∀ b, k b.erase = k b)
    (h : ∀ b, Blind (k b)) : Blind (getBlock id >>= k) := Alike.withBlock showsSession_erase hk h

theorem withSight {k : Sight → Lower α} (hk : ∀ v, k v.erase = k v) (h : ∀ v, Blind (k v)) :
    Blind (sight >>= k) := Alike.withSight showsSession_erase hk h

/-! ## Changing the state -/

theorem modifyState {g : State → State} (k : State → State) (h : ∀ s, (g s).erase = k s.erase) :
    Blind (modify g : Lower Unit) := by
  intro f s t hst
  refine congrArg (EStateM.Result.ok ()) ?_
  rw [h, h, hst]

theorem modifySession {g : Session → Session} (k : Session → Session)
    (h : ∀ s, (g s).erase = k s.erase) : Blind (Lowering.modifySession g) :=
  modifyState (fun s => { s with session := k s.session }) fun s => by
    simp only [State.erase, h]

theorem modifyBlock {id : Nat} {g : Block → Block} (h : ∀ b, (g b).erase = g b.erase) :
    Blind (modifyBlock id g) :=
  withBlock (fun _ => rfl) fun _ =>
    modifySession (fun s => s.modifyBlock id g) fun s => s.erase_modifyBlock h id

theorem addBlock (kind : BlockKind) (dialect : Dialect) (parent : Nat) :
    Blind (addBlock kind dialect parent) := by
  refine withSession (fun s => by simp [Session.erase]) fun s => withBlock (fun _ => rfl) fun _ => ?_
  refine bind (modifySession (fun u => u.addBlock kind dialect (some parent)) fun u => ?_) fun _ => pure _
  exact u.erase_addBlock kind dialect (some parent)

theorem nested (frame : Frame) {m : Lower α} (h : Blind m) : Blind (nested frame m) := by
  intro f s t hst
  have hstart : ({ session := s.session } : State).erase = ({ session := t.session } : State).erase :=
    congrArg (fun u : State => ({ session := u.session } : State)) hst
  have hrun := h frame _ _ hstart
  rw [run_nested, run_nested]
  generalize m frame { session := s.session } = rs at hrun ⊢
  generalize m frame { session := t.session } = rt at hrun ⊢
  cases rs <;> cases rt
  · obtain ⟨rfl, huv⟩ := EStateM.Result.ok.inj hrun
    have := congrArg (fun u : State => { s.erase with session := u.session }) huv
    refine congrArg (EStateM.Result.ok _) (this.trans ?_)
    rw [hst]
    rfl
  · cases hrun
  · cases hrun
  · exact hrun

theorem countingLocals {m : Lower Unit} (h : Blind m) : Blind (countingLocals m) := by
  intro f s t hst
  have hlocals : s.erase.session.counters.locals = t.erase.session.counters.locals := by rw [hst]
  change s.session.counters.locals = t.session.counters.locals at hlocals
  have hstart : ({ s with session := s.session.setLocals 0 } : State).erase =
      ({ t with session := t.session.setLocals 0 } : State).erase :=
    congrArg (fun u : State => { u with session := u.session.setLocals 0 }) hst
  have hend {u v : State} (huv : u.erase = v.erase) (n : Nat) :
      ({ u with session := u.session.setLocals n } : State).erase =
        ({ v with session := v.session.setLocals n } : State).erase :=
    congrArg (fun w : State => { w with session := w.session.setLocals n }) huv
  have hrun := h f _ _ hstart
  rw [run_countingLocals, run_countingLocals, hlocals]
  generalize m f { s with session := s.session.setLocals 0 } = rs at hrun ⊢
  generalize m f { t with session := t.session.setLocals 0 } = rt at hrun ⊢
  cases rs <;> cases rt
  · obtain ⟨_, huv⟩ := EStateM.Result.ok.inj hrun
    have hcount := congrArg (fun u : State => u.session.counters.locals) huv
    exact (congrArg (EStateM.Result.ok _) (hend huv _)).trans (congrArg (EStateM.Result.ok · _) hcount)
  · cases hrun
  · cases hrun
  · obtain ⟨rfl, huv⟩ := EStateM.Result.error.inj hrun
    exact congrArg (EStateM.Result.error _) (hend huv _)

/-! ## Patching -/

end Blind

/-- The code that instructions of a frame are put behind, if there is any. -/
def codeOf? (f : Frame) (s : Session) : Option (Array Instruction) :=
  if s.isWatching then some s.watch else (s.block? f.block).map Block.code

/-- What patching a jump of the code comes to. -/
def patched (code : Array Instruction) (pending target block : Nat) : Except Defect Instruction :=
  match code[pending]? with
  | none => .error (.patchOutside pending block)
  | some i => i.patch target

theorem codeOf?_erase (f : Frame) (s : Session) :
    codeOf? f s.erase = (codeOf? f s).map fun code => code.map Instruction.erase := by
  unfold codeOf?
  rw [Session.block?_erase]
  change (if s.isWatching then _ else _) = _
  split
  · rfl
  · cases s.block? f.block <;> rfl

theorem patched_erase (code : Array Instruction) (pending target block : Nat) :
    patched (code.map Instruction.erase) pending target block =
      (patched code pending target block).map Instruction.erase := by
  unfold patched
  rw [Array.getElem?_map]
  cases code[pending]? with
  | none => rfl
  | some i => exact i.patch_erase target

theorem run_patch (pending target : Nat) (f : Frame) (s : State) :
    patch pending target f s =
      match codeOf? f s.session with
      | none => .error (.defect (.missingBlock f.block)) s
      | some code =>
        match patched code pending target f.block with
        | .error d => .error (.defect d) s
        | .ok j => .ok () { s with session := s.session.replaceCode f.block pending j } := by
  cases hw : s.session.isWatching with
  | true =>
    cases hi : s.session.watch[pending]? with
    | none => simp [patch, codeOf?, patched, hw, hi]
    | some i => cases hj : i.patch target <;> simp [patch, codeOf?, patched, Session.replaceCode, hw, hi, hj]
  | false =>
    cases hb : s.session.block? f.block with
    | none => simp [patch, codeOf?, hw, hb]
    | some b =>
      cases hi : b.code[pending]? with
      | none => simp [patch, codeOf?, patched, hw, hb, hi]
      | some i =>
        cases hj : i.patch target <;>
          simp [patch, codeOf?, patched, Session.replaceCode, modifyBlock_run, hw, hb, hi, hj]

namespace Blind

theorem patch (pending target : Nat) : Blind (patch pending target) := by
  intro f s t hst
  have hsession := showsSession_erase s t hst
  have hcode := congrArg (codeOf? f) hsession
  rw [codeOf?_erase, codeOf?_erase] at hcode
  rw [run_patch, run_patch]
  cases hs : codeOf? f s.session <;> cases ht : codeOf? f t.session <;>
    simp only [hs, ht, Option.map_some, Option.map_none, Option.some.injEq, reduceCtorEq] at hcode
  · exact congrArg (EStateM.Result.error _) hst
  · rename_i code code'
    have hpatched := congrArg (fun c => patched c pending target f.block) hcode
    simp only [patched_erase] at hpatched
    dsimp only
    cases hj : patched code pending target f.block <;>
      cases hj' : patched code' pending target f.block <;> rw [hj, hj'] at hpatched
    · cases hpatched
      exact congrArg (EStateM.Result.error _) hst
    · cases hpatched
    · cases hpatched
    · rename_i i j
      have hij : i.erase = j.erase := Except.ok.inj hpatched
      refine congrArg (EStateM.Result.ok ()) ?_
      have hrest := congrArg
        (fun u : State => { u with session := u.session.replaceCode f.block pending i.erase }) hst
      unfold State.erase at hrest ⊢
      dsimp only at hrest ⊢
      rw [Session.erase_replaceCode, Session.erase_replaceCode, ← hij]
      exact hrest

theorem patchAll (pending : List Nat) (target : Nat) : Blind (patchAll pending target) :=
  forM fun p _ => patch p target

/-! ## Dependency nodes -/

theorem recordSplitChain : Blind recordSplitChain := by
  refine withSight (fun v => ?_) fun v => withState (fun _ => rfl) fun s => ?_
  · simp only [show v.erase.dependency? = v.dependency? from funext v.dependency?_erase]
  · refine bind (modifyState (fun s => { s with pointers := [] }) fun _ => rfl) fun _ => ?_
    split
    · exact pure _
    · exact after (.note _ _ _) fun _ => (Mild.recordRead _ _).blind

theorem freshNode (isTemporary : Bool) : Blind (freshNode isTemporary) := by
  have huid : Blind nextUid := by
    refine withSession (fun _ => rfl) fun u => ?_
    exact bind (modifySession (fun s => { s with nextUid := u.nextUid + 1 }) fun _ => rfl) fun _ => pure _
  exact after .read fun f => bind huid fun uid => pure _

theorem tracking (node : GraphNode) {m : Lower α} (h : Blind m) : Blind (tracking node m) := by
  refine bind (modifyState (fun s => { s with node }) fun _ => rfl) fun _ => ?_
  exact bind (withReader _ h) fun a => withState (fun _ => rfl) fun s => pure _

theorem commit (node : GraphNode) : Blind (commit node) :=
  onlyIf (Mild.defect _).blind
    (after (.note _ _ _) fun _ => modifyBlock fun _ => rfl)

theorem hold (node : GraphNode) : Blind (hold node) :=
  modifyState (fun s => { s with held := s.held ++ [node] }) fun _ => rfl

theorem pushPointers (segments : List Node) : Blind (pushPointers segments) :=
  modifyState (fun s => { s with pointers := s.pointers ++ segments }) fun _ => rfl

theorem lowerValueAndStore (target value : Node) (isLast : Bool) :
    Blind (lowerValueAndStore target value isLast) := by
  refine after .pc fun _ => after (.expression value) fun type => after .pc fun _ => ?_
  refine onlyIf recordSplitChain (after (Mild.refineType type) fun _ => ?_)
  exact after (.assignTo _ _) fun _ => pure _

theorem graphStatement (target value : Node) (span : Span) (isTemporary isLast : Bool) :
    Blind (graphStatement target value span isTemporary isLast) := by
  refine bind (freshNode _) fun fresh => after (.probe _) fun _ => ?_
  refine bind (tracking _ (lowerValueAndStore _ _ _)) fun result => ?_
  exact after (.emitSilent _ _) fun _ => after (.note _ _ _) fun _ => pure _

theorem lowerFactors (target : Node) (span : Span) (factor : Node) (anchor : Option Nat)
    (rest : List Node) : Blind (lowerFactors target span factor anchor rest) := by
  induction rest generalizing factor anchor with
  | nil =>
    refine after (.nextTemporary _) fun _ => bind (withReader _ (graphStatement _ _ _ _ _)) fun _ => ?_
    exact bind (hold _) fun _ => bind (graphStatement _ _ _ _ _) fun _ => hold _
  | cons segment rest ih =>
    refine after (.nextTemporary _) fun _ => bind (withReader _ (graphStatement _ _ _ _ _)) fun _ => ?_
    exact bind (hold _) fun _ => bind (pushPointers _) fun _ => ih _ _

theorem splitChain (target : Node) (segments : List Node) (span : Span) :
    Blind (splitChain target segments span) := by
  refine withSight (fun v => ?_) fun v => ?_
  · rw [v.splitAnchor?_erase]
  · split
    · exact bind (pushPointers _) fun _ => lowerFactors _ _ _ _ _
    · exact bind (pushPointers _) fun _ => lowerFactors _ _ _ _ _
    · exact (Mild.defect _).blind

theorem lowerSplit (target chain : Node) (span : Span) : Blind (lowerSplit target chain span) := by
  refine after (.chainSegments chain) fun segments => ?_
  refine bind (modifyState (fun s => { s with pointers := [], held := [] }) fun _ => rfl) fun _ => ?_
  refine bind (splitChain _ _ _) fun _ => withState (fun _ => rfl) fun s => ?_
  refine bind (modifyState (fun s => { s with pointers := [], held := [] }) fun _ => rfl) fun _ => ?_
  exact forM fun node _ => commit node

theorem lowerUpdate (target value : Node) (span : Span) : Blind (lowerUpdate target value span) := by
  refine after .forgetCallee fun _ => withSession (fun s => ?_) fun s => ite (lowerSplit _ _ _) ?_
  · cases value <;> rfl
  · exact bind (graphStatement _ _ _ _ _) fun node => commit node

/-! ## Returning and declaring -/

theorem returnStatement (value : Option Node) (span : Span) : Blind (returnStatement value span) := by
  have hrest (procedure : Option Procedure) : Blind (finishReturn value span procedure) := by
    refine after .pc fun startPc => after (.lowerReturned _ _) fun type => ?_
    refine after .pc fun endPc => bind (modifyState
      (fun s => { s with node := { s.node with startPc, endPc := endPc - 1 } }) fun _ => rfl) fun _ => ?_
    exact after (.checkReturned _ _ _) fun _ => after (.emitResult _) fun _ => pure _
  refine after .currentProcedure? fun procedure => ?_
  cases procedure with
  | none => exact hrest none
  | some p => exact onlyIf (Mild.halt _ _ _).blind (hrest (some p))

theorem lowerReturn (value : Option Node) (span : Span) : Blind (lowerReturn value span) := by
  refine bind (freshNode _) fun fresh => bind (tracking _ (returnStatement _ _)) fun result => ?_
  exact after .classScope fun _ => commit _

theorem registerProcedure (p : Procedure) : Blind (registerProcedure p) := by
  refine after .read fun f => withSession (fun _ => rfl) fun s => ?_
  split
  · split
    · exact (Mild.defect _).blind
    · next cls _ _ c _ =>
      exact bind (modifySession (fun u => { u with classes := u.classes.appendProcedure cls p })
        fun _ => rfl) fun _ => pure _
  · exact bind (modifySession (fun u => { u with procedures := u.procedures.append p })
      fun _ => rfl) fun _ => pure _

theorem modifyProcedure (r : ProcRef) (g : Procedure → Procedure) :
    Blind (Lowering.modifySession fun s => s.modifyProcedure r g) :=
  modifySession (fun s => s.modifyProcedure r g) fun s => s.erase_modifyProcedure r g

section
variable {statement : LowerStatement} (h : ∀ n, Blind (statement n))
include h

theorem lowerAll (l : List Node) : Blind (lowerAll statement l) := by
  induction l with
  | nil => exact pure _
  | cons n rest ih => exact bind (h n) fun _ => bind ih fun _ => pure _

theorem lowerUnit (block : Nat) (scope : Scope) (dialect : Dialect) (unit : List Node)
    (params : List Argument) : Blind (lowerUnit statement block scope dialect unit params) := by
  refine nested _ (after (.declareParams params) fun _ => bind (lowerAll h unit) fun _ => ?_)
  exact (Mild.closeUnit unit).blind

theorem lowerBlock (dialect : Dialect) (body : List Node) (span : Span) :
    Blind (lowerBlock statement dialect body span) := by
  refine after .read fun f => bind (addBlock _ _ _) fun child => bind (modifyBlock fun _ => rfl) fun _ => ?_
  refine bind (lowerUnit h _ _ _ _ _) fun _ => withBlock (fun _ => rfl) fun b => ?_
  exact after (.emit _ _) fun _ => pure _

theorem lowerFunction (fn : Function) (isGenerated : Bool) :
    Blind (lowerFunction statement fn isGenerated) := by
  refine after (.resolveType _ _) fun returns => after (.resolveParams _) fun args => ?_
  refine after (.lowerAttributes _) fun attributes => bind (registerProcedure _) fun r => ?_
  refine after .read fun f => bind (addBlock _ _ _) fun body => bind (modifyBlock fun _ => rfl) fun _ => ?_
  refine bind (modifyProcedure _ _) fun _ => after (.note _ _ _) fun _ => ?_
  refine bind (countingLocals (lowerUnit h _ _ _ _ _)) fun locals => ?_
  exact withBlock (fun _ => rfl) fun b => modifyProcedure _ _

theorem lowerVariable (v : Variable) : Blind (lowerVariable statement v) := by
  refine after (.resolveType _ _) fun type => after (.allocate _) fun r => ?_
  refine after (.getSymbol r) fun symbol => after (.emitHeapBox symbol) fun _ => ?_
  split
  · exact bind (h _) fun _ => pure _
  · exact pure _

theorem lowerClassBody (c : ClassDecl) : Blind (lowerClassBody statement c) := by
  refine after (.lowerMembers _) fun _ => bind (forM fun v _ => ?_) fun _ => ?_
  · exact bind (lowerFunction h _ _) fun _ => lowerFunction h _ _
  refine bind (forM fun f _ => lowerFunction h _ _) fun _ => ?_
  refine bind (forM fun f _ => lowerFunction h _ _) fun _ => ?_
  exact ite (lowerFunction h _ _) (pure _)

theorem lowerClass (c : ClassDecl) : Blind (lowerClass statement c) := by
  refine after (.resolveBase c) fun base => after (.lowerAttributes _) fun attributes => ?_
  refine withSession (fun _ => rfl) fun s => ?_
  split
  · exact (Mild.halt _ _ _).blind
  · next classes _ =>
    refine bind (modifySession (fun u => { u with classes }) fun _ => rfl) fun _ => ?_
    exact after (.note _ _ _) fun _ => withReader _ (lowerClassBody h c)

theorem lowerTopLevelClass (c : ClassDecl) : Blind (lowerTopLevelClass statement c) :=
  after .mayDeclareClass fun _ =>
    ite (lowerClass h c) (Mild.halt _ _ _).blind

/-! ## Statements -/

theorem associativeStatement (node : Node) : Blind (associativeStatement statement node) := by
  have hcontrol (span : Span) : Blind (haltOnControl (α := Unit) span) :=
    (Mild.halt _ _ _).blind
  have hunnamed (node : Node) : Blind (lowerUnnamed node) :=
    after (.nextTemporary _) fun _ => lowerUpdate _ _ _
  unfold Lowering.associativeStatement
  cases node with
  | assign => exact lowerUpdate _ _ _
  | ret => exact lowerReturn _ _
  | varDecl v => exact lowerVariable h v
  | function f => exact lowerFunction h f false
  | classDecl c => exact lowerTopLevelClass h c
  | block => exact lowerBlock h _ _ _
  | branch => exact hcontrol _
  | loop => exact hcontrol _
  | breakLoop => exact hcontrol _
  | continueLoop => exact hcontrol _
  | _ => exact hunnamed _

theorem lowerIf (body : List Node) (span : Span) : Blind (lowerIf statement body span) := by
  refine after (.emitStepping _ _ _) fun branch => bind (lowerAll h _) fun _ => ?_
  exact after .pc fun _ => bind (patch _ _) fun _ => pure _

theorem lowerIfElse (body otherwise : List Node) (span : Span) :
    Blind (lowerIfElse statement body otherwise span) := by
  refine after .pc fun _ => after (.emitCjmp _ _ _) fun _ => bind (lowerAll h _) fun _ => ?_
  refine after (.emitStepping _ _ _) fun _ => after .pc fun _ => bind (patch _ _) fun _ => ?_
  exact bind (lowerAll h _) fun _ => after .pc fun _ => bind (patch _ _) fun _ => pure _

theorem lowerWhile (condition : Node) (body : List Node) (span : Span) :
    Blind (lowerWhile statement condition body span) := by
  refine after .pc fun _ => after (.lowerCondition _ _) fun _ => after .pc fun _ => ?_
  refine after (.emitCjmp _ _ _) fun _ => bind (withReader _ (lowerAll h _)) fun _ => ?_
  refine bind (patchAll _ _) fun _ => after (.emitStepping _ _ _) fun _ => after .pc fun _ => ?_
  exact bind (patch _ _) fun _ => patchAll _ _

theorem imperativeStatement (node : Node) : Blind (imperativeStatement statement node) := by
  have hplain {m : Lower Unit} (hm : Blind m) : Blind (plain m) := bind hm fun _ => pure _
  unfold Lowering.imperativeStatement
  cases node with
  | assign => exact hplain (Mild.lowerAssignment _ _).blind
  | ret => exact hplain (returnStatement _ _)
  | branch => exact after (.lowerCondition _ _) fun _ => ite (lowerIf h _ _) (lowerIfElse h _ _ _)
  | loop => exact hplain (lowerWhile h _ _ _)
  | breakLoop => exact (Mild.lowerExit _ _ _).blind
  | continueLoop => exact (Mild.lowerExit _ _ _).blind
  | varDecl v => exact hplain (lowerVariable h v)
  | block => exact hplain (lowerBlock h _ _ _)
  | function f => exact hplain (lowerFunction h f false)
  | classDecl => exact (Mild.halt _ _ _).blind
  | _ => exact hplain (Mild.lowerDiscarded _).blind

end

theorem statementWithin (depth : Nat) (node : Node) : Blind (statementWithin depth node) := by
  induction depth generalizing node with
  | zero => exact (Mild.defect _).blind
  | succ depth ih =>
    refine after .read fun f => ?_
    cases f.dialect with
    | associative => exact bind (associativeStatement ih node) fun _ => pure _
    | imperative => exact imperativeStatement ih node

theorem statement (node : Node) : Blind (statement node) := statementWithin _ node

end Blind

end Lowering

end Diglot
