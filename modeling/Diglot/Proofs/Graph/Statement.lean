import Diglot.Proofs.Graph.Node

/-! # Statements leave the dependency nodes in order

`Upheld sites f m`: in a session whose blocks have the dialects that `sites` tells, and whose nodes are
in order, `m` leaves them in order, whether it finishes, halts or ends in a defect.

What is below statements leaves the nodes alone. An associative statement adds nodes behind those of its
block. A jump is only patched in an imperative block, where no node covers any code. The rest is made of
these by opening blocks, so that `sites` grows on the way down.
-/

set_option autoImplicit false

namespace Diglot

open Lowering

namespace Session

variable {s t : Session}

/-! ## Opening blocks and patching -/

def pushBlock (s : Session) (b : Block) : Session := { s with blocks := s.blocks.push b }

theorem block?_pushBlock (s : Session) (b : Block) (id : Nat) :
    (s.pushBlock b).block? id = if id = s.blocks.size then some b else s.block? id :=
  Array.getElem?_push

theorem still_addBlock (s : Session) (kind : BlockKind) (dialect : Dialect) (parent : Option Nat) :
    (s.pushBlock { id := s.blocks.size, kind, dialect, parent }).Still
      (s.addBlock kind dialect parent) := by
  cases parent with
  | none => exact .refl _
  | some p =>
    refine still_modifyBlock ?_ _ p
    exact fun b => ⟨rfl, rfl, rfl, List.prefix_refl _⟩

theorem Charted.addBlock (h : s.Charted 0 []) (kind : BlockKind) (dialect : Dialect)
    (parent : Option Nat) : (s.addBlock kind dialect parent).Charted 0 [] := by
  let b : Block := { id := s.blocks.size, kind, dialect, parent }
  have hnew : (s.pushBlock b).chart 0 [] s.blocks.size = [] :=
    chart_of_empty ((s.block?_pushBlock b _).trans (if_pos rfl)) rfl
  have hold {id : Nat} (hid : id ≠ s.blocks.size) : (s.pushBlock b).block? id = s.block? id :=
    (s.block?_pushBlock b id).trans (if_neg hid)
  suffices hpush : (s.pushBlock b).Charted 0 [] from
    hpush.still (s.still_addBlock kind dialect parent) rfl
  refine h.keep (fun id => ?_) (Nat.le_refl _) id fun id c hc => ?_
  · by_cases hid : id = s.blocks.size
    · rw [hid, hnew, chart_of_missing (Array.getElem?_eq_none (Nat.le_refl _))]
    · simp only [chart, hold hid]
  · by_cases hid : id = s.blocks.size
    · subst hid
      rw [block?_pushBlock, if_pos rfl] at hc
      cases hc
      exact ⟨rfl, .inl hnew⟩
    · rw [hold hid] at hc
      exact ⟨h.placed id c hc, .inr ⟨c, hc, rfl, List.prefix_refl _⟩⟩

theorem Sited.addBlock {sites : List (Nat × Dialect)} (h : s.Sited sites) (kind : BlockKind)
    (dialect : Dialect) (parent : Option Nat) :
    (s.addBlock kind dialect parent).Sited ((s.blocks.size, dialect) :: sites) := by
  refine (s.still_addBlock kind dialect parent).onward _ ⟨h.isWatching, h.units, fun p hp => ?_⟩
  rw [block?_pushBlock]
  rcases List.mem_cons.mp hp with rfl | hp
  · exact ⟨_, if_pos rfl, rfl⟩
  · obtain ⟨b, hb, hd⟩ := h.dialect p hp
    have hlt : p.1 < s.blocks.size := (Array.getElem?_eq_some_iff.mp hb).1
    exact ⟨b, by rw [if_neg (Nat.ne_of_lt hlt), hb], hd⟩

theorem Sited.only {sites : List (Nat × Dialect)} (h : s.Sited sites) {p : Nat × Dialect}
    (hp : p ∈ sites) : s.Sited [p] :=
  ⟨h.isWatching, h.units, fun q hq => h.dialect q (List.mem_singleton.mp hq ▸ hp)⟩

theorem onward_replaceCode (s : Session) (block pc : Nat) (i : Instruction) :
    s.Onward (s.replaceCode block pc i) := by
  intro sites h
  unfold replaceCode
  rw [h.isWatching]
  refine ⟨h.isWatching, h.units, fun p hp => ?_⟩
  obtain ⟨b, hb, hd⟩ := h.dialect p hp
  simp only [Bool.false_eq_true, if_false, block?_modifyBlock, hb]
  split
  · exact ⟨_, rfl, hd⟩
  · exact ⟨b, rfl, hd⟩

theorem Charted.replaceCode {block : Nat} {b : Block} (h : s.Charted 0 [])
    (hw : s.isWatching = false) (hb : s.block? block = some b) (hd : b.dialect = .imperative)
    (pc : Nat) (i : Instruction) : (s.replaceCode block pc i).Charted 0 [] := by
  -- Code that is replaced is nobody's value: an imperative block has no nodes.
  have hempty := h.imperative block b hb hd
  have hrun : s.replaceCode block pc i =
      s.modifyBlock block fun b => { b with code := b.code.setIfInBounds pc i } := by
    simp [Session.replaceCode, hw]
  rw [hrun]
  have hchart (id : Nat) :
      (s.modifyBlock block fun b => { b with code := b.code.setIfInBounds pc i }).chart 0 [] id =
        s.chart 0 [] id := by
    refine chart_modifyBlock ?_ id
    exact fun _ => rfl
  refine h.keep hchart (Nat.le_refl _) id fun id c hc => ?_
  rw [block?_modifyBlock] at hc
  by_cases hid : block = id
  · subst hid
    rw [if_pos rfl, hb] at hc
    cases hc
    exact ⟨h.placed _ b hb, .inl ((hchart _).trans hempty)⟩
  · rw [if_neg hid] at hc
    exact ⟨h.placed _ c hc, .inr ⟨c, hc, rfl, List.prefix_refl _⟩⟩

end Session

namespace Lowering

variable {α β : Type} {sites : List (Nat × Dialect)} {f : Frame}

/-- What is lowered leaves the nodes of all blocks in order, however it ends. -/
def Upheld (sites : List (Nat × Dialect)) (f : Frame) (m : Lower α) : Prop :=
  ∀ s, s.session.Sited sites → s.session.Charted 0 [] →
    s.session.Onward (ending (m f s)).session ∧ (ending (m f s)).session.Charted 0 []

namespace Upheld

theorem bind {m : Lower α} {k : α → Lower β} (hm : Upheld sites f m) (hk : ∀ a, Upheld sites f (k a)) :
    Upheld sites f (m >>= k) := by
  intro s hs hc
  have hfirst := hm s hs hc
  rw [run_bind]
  cases hrun : m f s with
  | ok a t =>
    rw [hrun] at hfirst
    obtain ⟨honward, hcharted⟩ := hk a t (hfirst.1 _ hs) hfirst.2
    exact ⟨hfirst.1.trans honward, hcharted⟩
  | error e t =>
    rw [hrun] at hfirst
    exact hfirst

theorem ofStill {m : Lower α} (h : ∀ f (s : State), s.session.Still (ending (m f s)).session) :
    Upheld sites f m := fun s _ hc => ⟨(h f s).onward, hc.still (h f s) rfl⟩

theorem ofMild {m : Lower α} (h : Tame false false m) : Upheld sites f m :=
  ofStill fun f s => (h.keeps f s).session

theorem after {m : Lower α} {k : α → Lower β} (hm : Tame false false m)
    (hk : ∀ a, Upheld sites f (k a)) : Upheld sites f (m >>= k) := bind (ofMild hm) hk

theorem pure (a : α) : Upheld sites f (Pure.pure a : Lower α) := ofStill fun _ _ => .refl _

theorem ite {c : Prop} [Decidable c] {m n : Lower α} (hm : Upheld sites f m)
    (hn : Upheld sites f n) : Upheld sites f (if c then m else n) := by
  split
  · exact hm
  · exact hn

theorem forM {l : List α} {k : α → Lower Unit} (h : ∀ a ∈ l, Upheld sites f (k a)) :
    Upheld sites f (l.forM k) := by
  induction l with
  | nil => exact pure ()
  | cons a rest ih =>
    exact bind (h a (List.mem_cons_self ..)) fun _ => ih fun b hb => h b (List.mem_cons_of_mem a hb)

theorem withFrame {k : Frame → Lower α} (h : Upheld sites f (k f)) : Upheld sites f (read >>= k) := h

theorem withSession {k : Session → Lower α} (h : ∀ s, Upheld sites f (k s)) :
    Upheld sites f (getSession >>= k) := fun s => h s.session s

theorem modifySession {g : Session → Session} (h : ∀ s : Session, s.Still (g s)) :
    Upheld sites f (modifySession g) := ofStill fun _ s => h s.session

theorem modifyProcedure (r : ProcRef) (g : Procedure → Procedure) :
    Upheld sites f (Lowering.modifySession fun s => s.modifyProcedure r g) := by
  refine modifySession fun s => ?_
  unfold Session.modifyProcedure
  split <;> exact Session.still_of_blocks rfl rfl rfl rfl

theorem modifyBlock {id : Nat} {g : Block → Block} (h : ∀ b : Block, b.Still (g b)) :
    Upheld sites f (modifyBlock id g) := by
  refine ofStill fun f s => ?_
  rw [modifyBlock_run]
  cases s.session.block? id with
  | none => exact .refl _
  | some b => exact Session.still_modifyBlock h s.session id

theorem nested {frame : Frame} {m : Lower α} (h : Upheld sites frame m) :
    Upheld sites f (nested frame m) := by
  intro s hs hc
  have hrun := h { session := s.session } hs hc
  rw [run_nested]
  cases hr : m frame { session := s.session } <;> rw [hr] at hrun <;> exact hrun

theorem countingLocals {m : Lower Unit} (h : Upheld sites f m) : Upheld sites f (countingLocals m) := by
  have hset (s : Session) (n : Nat) : s.Still (s.setLocals n) :=
    Session.still_of_blocks rfl rfl rfl rfl
  intro s hs hc
  have hstart := hset s.session 0
  obtain ⟨honward, hcharted⟩ := h { s with session := s.session.setLocals 0 }
    (hstart.onward _ hs) (hc.still hstart rfl)
  rw [run_countingLocals]
  cases hr : m f { s with session := s.session.setLocals 0 } with
  | ok a t =>
    rw [hr] at honward hcharted
    have hend := hset t.session s.session.counters.locals
    exact ⟨hstart.onward.trans (honward.trans hend.onward), hcharted.still hend rfl⟩
  | error e t =>
    rw [hr] at honward hcharted
    have hend := hset t.session s.session.counters.locals
    exact ⟨hstart.onward.trans (honward.trans hend.onward), hcharted.still hend rfl⟩

/-- What is lowered behind a new block knows its dialect. -/
theorem addBlockThen {kind : BlockKind} {dialect : Dialect} {parent : Nat} {k : Nat → Lower α}
    (hk : ∀ id, Upheld ((id, dialect) :: sites) f (k id)) :
    Upheld sites f (addBlock kind dialect parent >>= k) := by
  intro s hs hc
  simp only [addBlock, run_bind, run_getSession, run_getBlock, run_modifySession, run_pure]
  cases hb : s.session.block? parent with
  | none => exact ⟨.refl _, hc⟩
  | some b =>
    have hadd {other : List (Nat × Dialect)} (h : s.session.Sited other) :=
      h.addBlock kind dialect (some parent)
    obtain ⟨honward, hcharted⟩ := hk s.session.blocks.size
      { s with session := s.session.addBlock kind dialect (some parent) } (hadd hs)
      (hc.addBlock kind dialect (some parent))
    refine ⟨fun other hother => honward other ?_, hcharted⟩
    exact ⟨(hadd hother).isWatching, (hadd hother).units,
      fun p hp => (hadd hother).dialect p (List.mem_cons_of_mem _ hp)⟩

theorem patch (hsite : (f.block, .imperative) ∈ sites) (pending target : Nat) :
    Upheld sites f (patch pending target) := by
  intro s hs hc
  obtain ⟨b, hb, hd⟩ := hs.dialect _ hsite
  rcases patch_cases pending target f s with ⟨i, j, _, _, hrun⟩ | ⟨d, hrun⟩
  · rw [hrun]
    exact ⟨s.session.onward_replaceCode f.block pending j, hc.replaceCode hs.isWatching hb hd pending j⟩
  · rw [hrun]
    exact ⟨.refl _, hc⟩

theorem patchAll (hsite : (f.block, .imperative) ∈ sites) (pending : List Nat) (target : Nat) :
    Upheld sites f (patchAll pending target) := forM fun p _ => patch hsite p target

/-! ## Statements with nodes -/

/-- A node is made and becomes part of the program. -/
theorem made (hsite : (f.block, .associative) ∈ sites) {m : Lower GraphNode}
    (hm : ∀ s : State, s.session.isWatching = false → Makes f s (m f s)) {g : GraphNode → GraphNode}
    (hg : ∀ n, (g n).core = n.core) {k : GraphNode → Lower Unit}
    (hk : ∀ n s, k n f s = commit (g n) f s) : Upheld sites f (m >>= k) := by
  intro s hs hc
  have hmakes := hm s hs.isWatching
  have hst := hmakes.session
  rw [run_bind]
  cases hrun : m f s with
  | error e t =>
    rw [hrun] at hst
    exact ⟨(Session.onward_take _).trans hst.onward, hc.take.still hst rfl⟩
  | ok n t =>
    rw [hrun] at hst
    have honward := (Session.onward_take _).trans hst.onward
    have hmade := hmakes.charted (hs.only hsite) (hc.drop f.block) rfl hrun
    have hchanged : t.session.Charted f.block [g n] := hmade.still (.refl _) (by simp [hg])
    obtain ⟨honward', hcharted, -⟩ := charted_commit ((honward _ hs).only hsite) hchanged
    change s.session.Onward (ending (k n f t)).session ∧ (ending (k n f t)).session.Charted 0 []
    rw [hk]
    exact ⟨honward.trans honward', hcharted.drop 0⟩

theorem lowerSplit (hsite : (f.block, .associative) ∈ sites) (target chain : Node) (span : Span) :
    Upheld sites f (lowerSplit target chain span) := by
  refine after (.chainSegments chain) fun segments => ?_
  intro s hs hc
  obtain ⟨honward, hcharted, hheld⟩ := Holding.splitChain target segments span
    { s with pointers := [], held := [] } (hs.only hsite) (hc.drop f.block)
  simp only [run_bind, run_modify, run_get]
  cases hrun : splitChain target segments span f { s with pointers := [], held := [] } with
  | error e t =>
    rw [hrun] at honward hcharted
    exact ⟨honward, hcharted.drop 0⟩
  | ok _ t =>
    rw [hrun] at honward
    obtain ⟨honward', hcharted'⟩ := charted_forM_commit (f := f)
      (s := { t with pointers := [], held := [] }) ((honward _ hs).only hsite) (hheld _ t hrun)
    exact ⟨honward.trans honward', hcharted'.drop 0⟩

theorem lowerUpdate (hsite : (f.block, .associative) ∈ sites) (target value : Node) (span : Span) :
    Upheld sites f (lowerUpdate target value span) := by
  refine after .forgetCallee fun _ => withSession fun s => ite (lowerSplit hsite _ _ _) ?_
  exact made hsite (fun s hw => makes_graphStatement _ _ _ _ _ hw) (fun _ => rfl) fun _ _ => rfl

theorem lowerReturn (hsite : (f.block, .associative) ∈ sites) (value : Option Node) (span : Span) :
    Upheld sites f (lowerReturn value span) := by
  rw [lowerReturn_eq]
  refine made hsite (fun s hw => makes_returnNode value span hw)
    (g := fun n => { n with updated := some (returnPath f.scope.classScope) }) (fun _ => rfl) ?_
  exact fun _ _ => rfl

/-! ## Declarations -/

theorem registerProcedure (p : Procedure) : Upheld sites f (registerProcedure p) := by
  refine after .read fun g => withSession fun s => ?_
  split
  · split
    · exact ofMild (.defect _)
    · exact bind (modifySession fun s => Session.still_of_blocks rfl rfl rfl rfl) fun _ => pure _
  · exact bind (modifySession fun s => Session.still_of_blocks rfl rfl rfl rfl) fun _ => pure _

end Upheld

/-- Statements leave the nodes in order where the dialect of their block is known. -/
def Upholds (statement : LowerStatement) (n : Node) : Prop :=
  ∀ sites f, (f.block, f.dialect) ∈ sites → Upheld sites f (statement n)

namespace Upheld

section
variable {statement : LowerStatement} (h : ∀ n, Upholds statement n)
include h

theorem lowerAll (hsite : (f.block, f.dialect) ∈ sites) (l : List Node) :
    Upheld sites f (lowerAll statement l) := by
  induction l with
  | nil => exact pure _
  | cons n rest ih => exact bind (h n sites f hsite) fun _ => bind ih fun _ => pure _

theorem lowerUnit {block : Nat} {dialect : Dialect} (hsite : (block, dialect) ∈ sites) (scope : Scope)
    (unit : List Node) (params : List Argument) :
    Upheld sites f (lowerUnit statement block scope dialect unit params) := by
  refine nested (after (.declareParams params) fun _ => bind (lowerAll h hsite unit) fun _ => ?_)
  exact ofMild (.closeUnit unit)

theorem lowerBlock (dialect : Dialect) (body : List Node) (span : Span) :
    Upheld sites f (lowerBlock statement dialect body span) := by
  refine withFrame (addBlockThen fun child => bind (modifyBlock fun b => ?_) fun _ => ?_)
  · exact ⟨rfl, rfl, rfl, List.prefix_refl _⟩
  refine bind (lowerUnit h (List.mem_cons_self ..) _ _ _) fun _ => ?_
  refine ofMild (.withBlock (fun _ => rfl) fun b => ?_)
  exact .first (.emit _ _) fun _ => .pure _

theorem lowerFunction (fn : Function) (isGenerated : Bool) :
    Upheld sites f (lowerFunction statement fn isGenerated) := by
  refine after (.resolveType _ _) fun returns => after (.resolveParams _) fun args => ?_
  refine after (.lowerAttributes _) fun attributes => bind (registerProcedure _) fun r => ?_
  refine withFrame (addBlockThen fun body => bind (modifyBlock fun b => ?_) fun _ => ?_)
  · exact ⟨rfl, rfl, rfl, List.prefix_refl _⟩
  refine bind (modifyProcedure _ _) fun _ => after (.note _ _ _) fun _ => ?_
  refine bind (countingLocals (lowerUnit h (List.mem_cons_self ..) _ _ _)) fun locals => ?_
  refine bind (ofStill fun g s => ?_) fun b => modifyProcedure _ _
  rw [run_getBlock]
  cases s.session.block? body <;> exact .refl _

theorem lowerVariable (hsite : (f.block, f.dialect) ∈ sites) (v : Variable) :
    Upheld sites f (lowerVariable statement v) := by
  refine after (.resolveType _ _) fun type => after (.allocate _) fun r => ?_
  refine after (.getSymbol r) fun symbol => after (.emitHeapBox symbol) fun _ => ?_
  split
  · exact bind (h _ sites f hsite) fun _ => pure _
  · exact pure _

theorem lowerClassBody (c : ClassDecl) : Upheld sites f (lowerClassBody statement c) := by
  refine after (.lowerMembers _) fun _ => bind (forM fun v _ => ?_) fun _ => ?_
  · exact bind (lowerFunction h _ _) fun _ => lowerFunction h _ _
  refine bind (forM fun fn _ => lowerFunction h _ _) fun _ => ?_
  refine bind (forM fun fn _ => lowerFunction h _ _) fun _ => ?_
  exact ite (lowerFunction h _ _) (pure _)

theorem lowerTopLevelClass (c : ClassDecl) : Upheld sites f (lowerTopLevelClass statement c) := by
  have hhalt {α : Type} (issue : Issue) (message : String) (span : Span) :
      Upheld sites f (halt issue message span : Lower α) :=
    ofMild (.halt issue message span)
  refine after .mayDeclareClass fun _ => ite ?_ (hhalt _ _ _)
  refine after (.resolveBase c) fun base => after (.lowerAttributes _) fun attributes => ?_
  refine withSession fun s => ?_
  split
  · exact hhalt _ _ _
  · next classes _ =>
    refine bind (modifySession fun s => Session.still_of_blocks rfl rfl rfl rfl) fun _ => ?_
    refine after (.note _ _ _) fun _ => ?_
    exact lowerClassBody (f := { f with scope := .inClass s.classes.size }) h c

/-! ## Statements -/

theorem associativeStatement (hsite : (f.block, f.dialect) ∈ sites) (hd : f.dialect = .associative)
    (node : Node) : Upheld sites f (associativeStatement statement node) := by
  have hassociative : (f.block, .associative) ∈ sites := hd ▸ hsite
  have hcontrol (span : Span) : Upheld sites f (haltOnControl (α := Unit) span) :=
    ofMild (.halt _ _ _)
  have hunnamed (node : Node) : Upheld sites f (lowerUnnamed node) :=
    after (.nextTemporary _) fun _ => lowerUpdate hassociative _ _ _
  unfold Lowering.associativeStatement
  cases node with
  | assign => exact lowerUpdate hassociative _ _ _
  | ret => exact lowerReturn hassociative _ _
  | varDecl v => exact lowerVariable h hsite v
  | function fn => exact lowerFunction h fn false
  | classDecl c => exact lowerTopLevelClass h c
  | block => exact lowerBlock h _ _ _
  | branch => exact hcontrol _
  | loop => exact hcontrol _
  | breakLoop => exact hcontrol _
  | continueLoop => exact hcontrol _
  | _ => exact hunnamed _

theorem lowerIf (hsite : (f.block, f.dialect) ∈ sites) (hd : f.dialect = .imperative)
    (body : List Node) (span : Span) : Upheld sites f (lowerIf statement body span) := by
  refine after (.emitStepping _ _ _) fun branch => bind (lowerAll h hsite _) fun _ => ?_
  exact after .pc fun _ => bind (patch (hd ▸ hsite) _ _) fun _ => pure _

theorem lowerIfElse (hsite : (f.block, f.dialect) ∈ sites) (hd : f.dialect = .imperative)
    (body otherwise : List Node) (span : Span) :
    Upheld sites f (lowerIfElse statement body otherwise span) := by
  have hpatch (pending target : Nat) : Upheld sites f (Lowering.patch pending target) :=
    patch (hd ▸ hsite) pending target
  refine after .pc fun _ => after (.emitCjmp _ _ _) fun _ => bind (lowerAll h hsite _) fun _ => ?_
  refine after (.emitStepping _ _ _) fun _ => after .pc fun _ => bind (hpatch _ _) fun _ => ?_
  exact bind (lowerAll h hsite _) fun _ => after .pc fun _ => bind (hpatch _ _) fun _ => pure _

theorem lowerWhile (hsite : (f.block, f.dialect) ∈ sites) (hd : f.dialect = .imperative)
    (condition : Node) (body : List Node) (span : Span) :
    Upheld sites f (lowerWhile statement condition body span) := by
  have hbody : Upheld sites f (withReader (fun f => { f with inLoop := true })
      (Lowering.lowerAll statement body)) := lowerAll (f := { f with inLoop := true }) h hsite body
  refine after .pc fun _ => after (.lowerCondition _ _) fun _ => after .pc fun _ => ?_
  refine after (.emitCjmp _ _ _) fun _ => bind hbody fun _ => ?_
  refine bind (patchAll (hd ▸ hsite) _ _) fun _ => after (.emitStepping _ _ _) fun _ => ?_
  refine after .pc fun _ => bind (patch (hd ▸ hsite) _ _) fun _ => ?_
  exact patchAll (hd ▸ hsite) _ _

theorem imperativeStatement (hsite : (f.block, f.dialect) ∈ sites) (hd : f.dialect = .imperative)
    (node : Node) : Upheld sites f (imperativeStatement statement node) := by
  have hplain {m : Lower Unit} (hm : Upheld sites f m) : Upheld sites f (plain m) :=
    bind hm fun _ => pure _
  unfold Lowering.imperativeStatement
  cases node with
  | assign => exact hplain (ofMild (.lowerAssignment _ _))
  | ret => exact hplain (ofStill fun g s => (Gentle.returnStatement _ _ g s).session)
  | branch =>
    refine after (.lowerCondition _ _) fun _ => ?_
    exact ite (lowerIf h hsite hd _ _) (lowerIfElse h hsite hd _ _ _)
  | loop => exact hplain (lowerWhile h hsite hd _ _ _)
  | breakLoop => exact ofMild (.lowerExit _ _ _)
  | continueLoop => exact ofMild (.lowerExit _ _ _)
  | varDecl v => exact hplain (lowerVariable h hsite v)
  | block => exact hplain (lowerBlock h _ _ _)
  | function fn => exact hplain (lowerFunction h fn false)
  | classDecl => exact ofMild (.halt _ _ _)
  | _ => exact hplain (ofMild (.lowerDiscarded _))

end

end Upheld

theorem upholds_statementWithin (depth : Nat) (node : Node) :
    Upholds (statementWithin depth) node := by
  induction depth generalizing node with
  | zero => exact fun _ _ _ => .ofMild (.defect _)
  | succ depth ih =>
    intro sites f hsite
    refine Upheld.withFrame ?_
    cases hd : f.dialect with
    | associative => exact .bind (.associativeStatement ih hsite hd node) fun _ => .pure _
    | imperative => exact .imperativeStatement ih hsite hd node

theorem upholds_statement (node : Node) : Upholds statement node := upholds_statementWithin _ node

end Lowering

end Diglot
