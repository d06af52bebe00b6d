import Diglot.Proofs.Guides.Store

/-! # Statements without guides

A unit is lowered into a block of its own, whose dialect is known from then on (`Lockstep.addBlock`). Language
blocks, procedures and classes are lowered alike if the statements in them are (`LoweredAlike`). The code of a
procedure begins at its first instruction, whether guides are counted or not (`lowerBody_fromStart`).

Jumps are patched in imperative code, which is the same whether guides are asked for or not; so the places that are
jumped to are the same. Every statement without guides is lowered alike (`Node.Suits.loweredAlike`). The induction
is on the weight of the statement.
-/

set_option autoImplicit false

namespace Diglot

open Lowering

namespace Session

theorem block?_addBlock_dialect (s : Session) (kind : BlockKind) (dialect : Dialect) (parent : Option Nat) (id : Nat) :
    ((s.addBlock kind dialect parent).block? id).map Block.dialect =
      if id = s.blocks.size then some dialect else (s.block? id).map Block.dialect := by
  let child : Block := { id := s.blocks.size, kind, dialect, parent }
  have hpush : (({ s with blocks := s.blocks.push child } : Session).block? id).map Block.dialect =
      if id = s.blocks.size then some dialect else (s.block? id).map Block.dialect := by
    simp only [block?, Array.getElem?_push]
    split <;> rfl
  cases parent with
  | none => exact hpush
  | some p =>
    rw [← hpush]
    simp only [addBlock, block?_modifyBlock]
    split
    · cases ({ s with blocks := s.blocks.push child } : Session).block? id <;> rfl
    · rfl

theorem Fewer.begun {s t : Session} (h : s.Fewer t) : s.Begun ∧ t.Begun := by
  refine ⟨fun id b hb => ?_, fun id c hc => ?_⟩
  · obtain ⟨hnone, -⟩ | ⟨b', c, hb', -, hbc⟩ := h.block?_cases id
    · cases hnone.symm.trans hb
    · cases hb'.symm.trans hb
      exact hbc.begins.1
  · obtain ⟨-, hnone⟩ | ⟨b, c', -, hc', hbc⟩ := h.block?_cases id
    · cases hnone.symm.trans hc
    · cases hc'.symm.trans hc
      exact hbc.begins.2

theorem Fewer.setLocals {s t : Session} (h : s.Fewer t) (n : Nat) : (s.setLocals n).Fewer (t.setLocals n) :=
  h.annotate (g := fun u => u.setLocals n) fun _ => ⟨rfl, rfl, rfl, rfl⟩

end Session

theorem Block.Begins.entry {b : Block} (h : b.Begins) : b.entry.getD 0 = 0 := by
  unfold Begins at h
  rw [h]
  split <;> rfl

namespace Lowering

/-! ## New blocks -/

namespace Ground

variable {x : Ground} {f : Frame} {s : Session} {id : Nat}

/-- The dialect of one more block is known. -/
def know (x : Ground) (id : Nat) (dialect : Dialect) : Ground :=
  { x with dialect? := fun j => if j = id then some dialect else x.dialect? j }

theorem dialect?_know (x : Ground) (id : Nat) (dialect : Dialect) : (x.know id dialect).dialect? id = some dialect :=
  if_pos rfl

theorem Bears.know (h : x.Bears f) (hid : x.dialect? id = none) (dialect : Dialect) : (x.know id dialect).Bears f := by
  refine ⟨fun hw => ?_, h.guided⟩
  have hne : f.block ≠ id := by
    rintro rfl
    cases (h.dialect hw).symm.trans hid
  exact (if_neg hne).trans (h.dialect hw)

/-- What is known of the session when a block has been added. -/
theorem Holds.addBlock (h : x.Holds s) (kind : BlockKind) (dialect : Dialect) (parent : Option Nat) :
    x.dialect? s.blocks.size = none ∧ (x.know s.blocks.size dialect).Holds (s.addBlock kind dialect parent) := by
  refine ⟨?_, ?_, ?_, ?_, fun id d hd => ?_⟩
  · cases hd : x.dialect? s.blocks.size with
    | none => rfl
    | some d =>
      have hs := h.dialects _ d hd
      rw [Session.block?, Array.getElem?_eq_none (Nat.le_refl _)] at hs
      cases hs
  · cases parent <;> exact h.guides
  · rw [Session.isWatching_addBlock]
    exact h.isWatching
  · rw [Session.counters_addBlock]
    exact h.units
  · rw [Session.block?_addBlock_dialect]
    unfold Ground.know at hd
    dsimp only at hd
    split at hd
    · next heq => rw [if_pos heq, hd]
    · next hne =>
      rw [if_neg hne]
      exact h.dialects id d hd

theorem Holds.forget {dialect : Dialect} (h : (x.know id dialect).Holds s) (hid : x.dialect? id = none) : x.Holds s := by
  refine ⟨h.guides, h.isWatching, h.units, fun j d hd => h.dialects j d ?_⟩
  have hne : j ≠ id := by
    rintro rfl
    cases hd.symm.trans hid
  exact (if_neg hne).trans hd

end Ground

namespace Lockstep

variable {α β γ : Type} {x : Ground} {f : Frame} {R : β → γ → Prop}

/-- From where a block is added, its dialect is known. -/
theorem addBlock {kind : BlockKind} {dialect : Dialect} {parent : Nat} {k : Nat → Lower β} {l : Nat → Lower γ}
    (h : ∀ id, x.dialect? id = none → Lockstep (x.know id dialect) f R (k id) (l id)) :
    Lockstep x f R (addBlock kind dialect parent >>= k) (addBlock kind dialect parent >>= l) := by
  intro s t hs hst
  obtain ⟨hb, hc⟩ | ⟨b, c, hb, hc, -⟩ := hst.session.block?_cases parent
  · have hnone {g : Frame} {u : State} (h : u.session.block? parent = none) :
        Lowering.addBlock kind dialect parent g u = .error (.defect (.missingBlock parent)) u := by
      simp only [Lowering.addBlock, run_bind, run_getSession, run_getBlock, h]
    rw [run_bind, run_bind, hnone hb, hnone hc]
    exact .error hst hs
  · obtain ⟨hid, hholds⟩ := hs.addBlock kind dialect (some parent)
    have hmeets := h _ hid _ _ hholds (hst.withSession (hst.session.addBlock kind dialect (some parent)))
    have hsome {g : Frame} {u : State} {d : Block} (h : u.session.block? parent = some d) :
        Lowering.addBlock kind dialect parent g u =
          .ok u.session.blocks.size { u with session := u.session.addBlock kind dialect (some parent) } := by
      simp only [Lowering.addBlock, run_bind, run_getSession, run_getBlock, h, run_modifySession, run_pure]
    rw [run_bind, run_bind, hsome hb, hsome hc, hst.session.size]
    dsimp only
    generalize k _ f _ = r at hmeets ⊢
    generalize l _ f.unguided _ = r' at hmeets ⊢
    cases hmeets with
    | ok hab huv hu => exact .ok hab huv (hu.forget hid)
    | error huv hu => exact .error huv (hu.forget hid)

theorem nested {g : Frame} {m : Lower β} {n : Lower γ} (hg : g.isGuided = false) (h : Lockstep x g R m n) :
    Lockstep x f R (nested g m) (nested g n) := by
  intro s t hs hst
  have hmeets := h { session := s.session } { session := t.session } hs ⟨hst.session, rfl, rfl, rfl, rfl⟩
  have hunguided : g.unguided = g := by
    unfold Frame.unguided
    rw [← hg]
  rw [hunguided] at hmeets
  rw [run_nested, run_nested]
  generalize m g _ = r at hmeets ⊢
  generalize n g _ = r' at hmeets ⊢
  cases hmeets with
  | ok hab huv hu => exact .ok hab (hst.withSession huv.session) hu
  | error huv hu => exact .error huv hu

theorem countingLocals {m n : Lower Unit} (h : Lockstep x f Eq m n) :
    Lockstep x f Eq (countingLocals m) (countingLocals n) := by
  intro s t hs hst
  have hmeets := h { s with session := s.session.setLocals 0 } { t with session := t.session.setLocals 0 }
    (hs.congr rfl rfl rfl fun _ _ => rfl) (hst.withSession (hst.session.setLocals 0))
  rw [run_countingLocals, run_countingLocals, hst.session.counters]
  generalize m f _ = r at hmeets ⊢
  generalize n f.unguided _ = r' at hmeets ⊢
  cases hmeets with
  | ok hab huv hu =>
    exact .ok (congrArg Counters.locals huv.session.counters.symm :) (huv.withSession (huv.session.setLocals _))
      (hu.congr rfl rfl rfl fun _ _ => rfl)
  | error huv hu =>
    exact .error (huv.withSession (huv.session.setLocals _)) (hu.congr rfl rfl rfl fun _ _ => rfl)

/-! ## Headers -/

theorem resolveType (type : TypeName) (span : Span) :
    Lockstep x f Eq (resolveType type span) (resolveType type span) := by
  refine withSession fun s t _ hst => ?_
  rw [hst.classes]
  split
  · exact pure rfl
  · exact halt _ _ _

theorem resolveParams (params : List Parameter) :
    Lockstep x f Eq (resolveParams params) (resolveParams params) := by
  induction params with
  | nil => exact pure rfl
  | cons p rest ih => exact bind (resolveType _ _) fun _ => bind ih fun _ => pure rfl

theorem lowerAttributes (attributes : List Call) :
    Lockstep x f Eq (lowerAttributes attributes) (lowerAttributes attributes) := by
  induction attributes with
  | nil => exact pure rfl
  | cons a rest ih =>
    refine withSession fun s t _ hst => ?_
    rw [hst.classes]
    split
    · exact bind ih fun _ => pure rfl
    · exact after (report _ _ _) ih

theorem resolveBase (c : ClassDecl) : Lockstep x f Eq (resolveBase c) (resolveBase c) := by
  unfold Lowering.resolveBase
  split
  · exact pure rfl
  · refine withSession fun s t _ hst => ?_
    rw [hst.classes]
    split
    · exact pure rfl
    · exact halt _ _ _

theorem lowerMembers (members : List Variable) :
    Lockstep x f Eq (lowerMembers members) (lowerMembers members) := by
  induction members with
  | nil => exact pure rfl
  | cons v rest ih => exact bind (resolveType _ _) fun _ => after (allocate _) ih

theorem appendMethod (cls : Nat) (p : Procedure) :
    Lockstep x f Eq (Lowering.modifySession fun s => { s with classes := s.classes.appendProcedure cls p })
      (Lowering.modifySession fun s => { s with classes := s.classes.appendProcedure cls p }) :=
  annotate (fun _ => ⟨rfl, rfl, rfl, rfl⟩) fun _ => ⟨rfl, rfl⟩

theorem registerProcedure (p : Procedure) :
    Lockstep x f Eq (registerProcedure p) (registerProcedure p) := by
  refine withFrame (withSession fun s t _ hst => ?_)
  have hscope : f.unguided.scope = f.scope := rfl
  rw [hst.classes, hst.procedures, hscope]
  split
  · split
    · exact defect _
    · exact after (appendMethod _ p) (pure rfl)
  · exact after (annotate (g := fun u => { u with procedures := u.procedures.append p })
      (fun _ => ⟨rfl, rfl, rfl, rfl⟩) fun _ => ⟨rfl, rfl⟩) (pure rfl)

theorem modifyProcedure (r : ProcRef) (g : Procedure → Procedure) :
    Lockstep x f Eq (Lowering.modifySession fun s => s.modifyProcedure r g)
      (Lowering.modifySession fun s => s.modifyProcedure r g) := by
  unfold Session.modifyProcedure
  cases r.classScope with
  | none => exact annotate (fun _ => ⟨rfl, rfl, rfl, rfl⟩) fun _ => ⟨rfl, rfl⟩
  | some cls => exact annotate (fun _ => ⟨rfl, rfl, rfl, rfl⟩) fun _ => ⟨rfl, rfl⟩

end Lockstep

/-! ## Units -/

/-- Where it is compiled, and guides are asked for as told, the statement is lowered as where they are not. -/
def LoweredAlike (asks : Bool) (n : Node) : Prop :=
  ∀ (x : Ground) (f : Frame), x.asks = asks → x.isWatching = false → x.Bears f →
    Lockstep x f Eq (statement n) (statement n)

namespace Lockstep

variable {x : Ground} {f : Frame}

section
variable (hw : x.isWatching = false)
include hw

theorem lowerAll (hb : x.Bears f) {l : List Node} (hl : ∀ n ∈ l, LoweredAlike x.asks n) :
    Lockstep x f Eq (lowerAll statement l) (lowerAll statement l) := by
  induction l with
  | nil => exact pure rfl
  | cons n rest ih =>
    refine bind (hl n (List.mem_cons_self ..) x f rfl hw hb) fun _ => ?_
    exact bind (ih fun m hm => hl m (List.mem_cons_of_mem n hm)) fun _ => pure rfl

theorem lowerCode (hb : x.Bears f) {unit : List Node} (hunit : ∀ n ∈ unit, LoweredAlike x.asks n) :
    Lockstep x f Eq (lowerCode unit) (lowerCode unit) :=
  after (lowerAll hw hb hunit) (closeUnit hb unit)

/-- A unit goes to a block whose dialect is known. -/
theorem lowerUnit {block : Nat} {dialect : Dialect} (hblock : x.dialect? block = some dialect) (scope : Scope)
    {unit : List Node} (hunit : ∀ n ∈ unit, LoweredAlike x.asks n) (params : List Argument) :
    Lockstep x f Eq (lowerUnit statement block scope dialect unit params)
      (lowerUnit statement block scope dialect unit params) := by
  have hb : x.Bears (unitFrame block scope dialect unit) := ⟨fun _ => hblock, nofun⟩
  refine nested rfl (bind (forM fun p _ => after (allocate _) (pure rfl)) fun _ => ?_)
  exact lowerCode hw hb hunit

theorem lowerBlock (hb : x.Bears f) (dialect : Dialect) {body : List Node} (hbody : ∀ n ∈ body, LoweredAlike x.asks n)
    (span : Span) : Lockstep x f Eq (lowerBlock statement dialect body span) (lowerBlock statement dialect body span) := by
  refine withFrame (addBlock fun child hchild => after (R := Eq) (modifyBlock child ?_ ?_) ?_)
  · exact fun _ => rfl
  · exact fun _ => ⟨rfl, rfl, rfl⟩
  refine bind (lowerUnit (x := x.know child dialect) hw (x.dialect?_know _ _) f.scope hbody []) fun _ => ?_
  refine andThen (getBlock child) fun b c hbc => ?_
  rw [hbc.begins.1.entry, hbc.begins.2.entry]
  exact after (emit (hb.know hchild dialect) rfl span) (pure rfl)

end

end Lockstep

/-! ## Procedures -/

/-- Registers a procedure and lowers its body, and tells the procedure, the block of the body, and the count of
locals. -/
def openBody (fn : Function) (p : Procedure) : Lower (ProcRef × Nat × Nat) := do
  let r ← registerProcedure p
  let frame ← read
  let body ← addBlock .function frame.dialect frame.block
  modifyBlock body fun b => { b with procedure := some r }
  modifySession fun s => s.modifyProcedure r fun p => { p with block := some body }
  note .debug .code ("procedure '" ++ fn.name ++ "' in block " ++ toString body)
  let scope : Scope := { classScope := r.classScope, procedure := some r, body := some body }
  let locals ← countingLocals (lowerUnit statement body scope frame.dialect fn.body p.args)
  return (r, body, locals)

/-- Writes down where the body of a procedure begins. -/
def closeBody (entryOf : Block → Option Nat) : ProcRef × Nat × Nat → Lower Unit
  | (r, body, locals) => do
    let entry := entryOf (← getBlock body)
    modifySession fun s => s.modifyProcedure r fun p => { p with entry, locals }

theorem lowerBody_eq (fn : Function) (p : Procedure) :
    lowerBody statement fn p = openBody fn p >>= closeBody Block.entry := by
  simp only [lowerBody, openBody, closeBody, bind_assoc, pure_bind]

theorem openBody_block {fn : Function} {p : Procedure} {f : Frame} {s t : State} {r : ProcRef} {body locals : Nat}
    (hrun : openBody fn p f s = .ok (r, body, locals) t) : body = s.session.blocks.size := by
  obtain ⟨r', u, hregister, hrun⟩ := bind_eq_ok.mp hrun
  obtain ⟨frame, u', hread, hrun⟩ := bind_eq_ok.mp hrun
  cases hread
  obtain ⟨body', v, hadd, hrun⟩ := bind_eq_ok.mp hrun
  obtain ⟨⟨⟩, v', -, hrun⟩ := bind_eq_ok.mp hrun
  obtain ⟨⟨⟩, w, -, hrun⟩ := bind_eq_ok.mp hrun
  obtain ⟨⟨⟩, w', -, hrun⟩ := bind_eq_ok.mp hrun
  obtain ⟨locals', z, -, hpure⟩ := bind_eq_ok.mp hrun
  cases hpure
  have hsize : u.session.blocks.size = s.session.blocks.size := by
    obtain ⟨-, heq⟩ | ⟨d, heq⟩ := registerProcedure_cases p f s
    · cases heq.symm.trans hregister
      exact congrArg Array.size (Session.blocks_register _ _ _)
    · cases heq.symm.trans hregister
  rw [← hsize]
  simp only [addBlock, run_bind, run_getSession, run_getBlock, run_modifySession, run_pure] at hadd
  split at hadd
  · cases hadd
    rfl
  · cases hadd

/-- The body of a procedure has instructions and begins at the first of them. -/
theorem lowerBody_fromStart (fn : Function) (p : Procedure) (f : Frame) {s : State} (hbegun : s.session.Begun)
    (hw : s.session.isWatching = false) :
    lowerBody statement fn p f s = (openBody fn p >>= closeBody fun _ => some 0) f s := by
  rw [lowerBody_eq, run_bind, run_bind]
  cases hopen : openBody fn p f s with
  | error e t => rfl
  | ok o t =>
    obtain ⟨r, body, locals⟩ := o
    have hbody := openBody_block hopen
    subst hbody
    dsimp only
    cases hblock : t.session.block? s.session.blocks.size with
    | none => simp only [closeBody, run_bind, run_getBlock, hblock]
    | some b =>
      let u := { t with session := t.session.modifyProcedure r fun p => { p with entry := b.entry, locals } }
      have hrun : lowerBody statement fn p f s = .ok () u := by
        rw [lowerBody_eq, run_bind, hopen]
        simp only [closeBody, run_bind, run_getBlock, hblock, run_modifySession]
        rfl
      have haside := lowerBody_aside (fun n _ => laysOut n) hw hrun
      have hend : u.session.block? s.session.blocks.size = some b :=
        (congrArg (·[s.session.blocks.size]?) (Session.blocks_modifyProcedure _ _ _)).trans hblock
      have htext : u.session.text s.session.blocks.size = some (b.kind, b.code) := by
        unfold Session.text
        rw [hend]
        rfl
      have hentry : b.entry = some 0 :=
        ((haside.added _ _ _ (Nat.le_refl _) htext).finishes (haside.begun hbegun _ b hend)).entry
      simp only [closeBody, run_bind, run_getBlock, hblock, hentry]

namespace Lockstep

variable {x : Ground} {f : Frame}

section
variable (hw : x.isWatching = false)
include hw

theorem lowerBody {fn : Function} (hbody : ∀ n ∈ fn.body, LoweredAlike x.asks n) (p : Procedure) :
    Lockstep x f Eq (lowerBody statement fn p) (lowerBody statement fn p) := by
  have hstart : Lockstep x f Eq (openBody fn p >>= closeBody fun _ => some 0)
      (openBody fn p >>= closeBody fun _ => some 0) := by
    simp only [openBody, closeBody, bind_assoc, pure_bind]
    refine bind (registerProcedure p) fun r => withFrame (addBlock fun body hnew => ?_)
    refine after (R := Eq) (modifyBlock body ?_ ?_) ?_
    · exact fun _ => rfl
    · exact fun _ => ⟨rfl, rfl, rfl⟩
    refine bind (modifyProcedure r _) fun _ => after (note _ _ _ _) ?_
    refine bind (countingLocals ?_) fun locals => ?_
    · exact lowerUnit (x := x.know body f.dialect) hw (x.dialect?_know _ _) _ hbody p.args
    exact after (getBlock body) (modifyProcedure r _)
  intro s t hs hst
  obtain ⟨hbegun, hbegun'⟩ := hst.session.begun
  have hws : s.session.isWatching = false := hs.isWatching.trans hw
  rw [lowerBody_fromStart fn p f hbegun hws,
    lowerBody_fromStart fn p f.unguided hbegun' (hst.session.isWatching.trans hws)]
  exact hstart s t hs hst

theorem lowerFunction {fn : Function} (hbody : ∀ n ∈ fn.body, LoweredAlike x.asks n) (isGenerated : Bool) :
    Lockstep x f Eq (lowerFunction statement fn isGenerated) (lowerFunction statement fn isGenerated) := by
  rw [lowerFunction_eq]
  refine bind (resolveType _ _) fun returns => bind (resolveParams _) fun args => ?_
  exact bind (lowerAttributes _) fun attributes => lowerBody hw hbody _

/-! ## Variables and classes -/

theorem lowerVariable (hb : x.Bears f) {v : Variable} (hfirst : ∀ n, initializer? v = some n → LoweredAlike x.asks n) :
    Lockstep x f Eq (lowerVariable statement v) (lowerVariable statement v) := by
  refine bind (resolveType _ _) fun type => bind (allocate _) fun r => bind (getSymbol r) fun symbol => ?_
  refine bind (emitHeapBox hb symbol) fun _ => ?_
  split
  · next assignment h => exact after (hfirst assignment h x f rfl hw hb) (pure rfl)
  · exact pure rfl

omit hw in
theorem suits_initializer {v : Variable} {n : Node} (h : initializer? v = some n)
    (hv : ∀ value, v.value = some value → value.Suits x.asks) : n.Suits x.asks := by
  obtain ⟨value, hvalue, rfl⟩ := Option.map_eq_some_iff.mp h
  exact .assign (.plain v.name v.span) (hv value hvalue)

/-- The members and procedures of a class, made-up ones included, are lowered alike if all lighter trees are. -/
theorem lowerClassBody {c : ClassDecl} (hlight : ∀ n : Node, n.weight < c.weight → n.Suits x.asks → LoweredAlike x.asks n)
    (hc : (Node.classDecl c).Suits x.asks) :
    Lockstep x f Eq (lowerClassBody statement c) (lowerClassBody statement c) := by
  have hvalue (v : Variable) (hv : v ∈ c.members) (value : Node) (h : v.value = some value) : value.Suits x.asks :=
    hc.part (List.mem_append_left _ (List.mem_filterMap.mpr ⟨v, hv, h⟩))
  have hinitializers (keep : Variable → Bool) : ∀ n ∈ (c.members.filter keep).filterMap initializer?, n.Suits x.asks := by
    intro n hn
    obtain ⟨v, hv, hinit⟩ := List.mem_filterMap.mp hn
    exact suits_initializer hinit (hvalue v (List.mem_filter.mp hv).1)
  have hmethod (fn : Function) (hfn : fn ∈ c.methods) : ∀ n ∈ fn.body, n.Suits x.asks := fun n hn =>
    hc.part (List.mem_append_right _ (List.mem_flatMap.mpr ⟨fn, hfn, hn⟩))
  refine bind (lowerMembers _) fun _ => bind (forM fun v hv => ?_) fun _ => ?_
  · have hlt := weight_member_lt (List.mem_filter.mp hv).1
    refine bind (lowerFunction hw (fun n hn => hlight n ?_ ?_) true) fun _ =>
      lowerFunction hw (fun n hn => hlight n ?_ ?_) true
    · exact Nat.lt_of_le_of_lt (weight_accessor_le (.inl hn)) hlt
    · rw [List.mem_singleton.mp hn]
      refine .of (fun _ => rfl) fun m hm => ?_
      rw [List.mem_singleton.mp hm]
      exact .plain _ _
    · exact Nat.lt_of_le_of_lt (weight_accessor_le (.inr hn)) hlt
    · rw [List.mem_singleton.mp hn]
      exact .assign (.plain _ _) (.plain _ _)
  refine bind (forM fun fn hfn => ?_) fun _ => bind (forM fun fn hfn => ?_) fun _ => ite ?_ (pure rfl)
  · unfold staticInitializer? at hfn
    split at hfn
    · cases hfn
    · rw [List.mem_singleton.mp hfn]
      exact lowerFunction hw (fun n hn => hlight n (weight_initializers_lt hn) (hinitializers _ n hn)) true
  · refine lowerFunction hw (fun n hn => hlight n (weight_withInitializers_lt hfn hn) ?_) false
    unfold withInitializers at hn
    split at hn
    · obtain hn | hn := List.mem_append.mp hn
      · exact hinitializers _ n hn
      · exact hmethod fn hfn n hn
    · exact hmethod fn hfn n hn
  · exact lowerFunction hw (fun n hn => hlight n (weight_initializers_lt hn) (hinitializers _ n hn)) true

theorem lowerClass {c : ClassDecl} (hlight : ∀ n : Node, n.weight < c.weight → n.Suits x.asks → LoweredAlike x.asks n)
    (hc : (Node.classDecl c).Suits x.asks) : Lockstep x f Eq (lowerClass statement c) (lowerClass statement c) := by
  refine bind (resolveBase c) fun base => bind (lowerAttributes _) fun attributes => withSession fun s t _ hst => ?_
  rw [hst.classes]
  split
  · exact halt _ _ _
  · next classes _ =>
    refine after (annotate (g := fun u => { u with classes }) (fun _ => ⟨rfl, rfl, rfl, rfl⟩) fun _ => ⟨rfl, rfl⟩)
      (after (note _ _ _ _) (withReader rfl ?_))
    exact lowerClassBody hw hlight hc

end

end Lockstep

end Lowering

/-! ## Patching -/

theorem Instruction.isGuideCount_of_patch {i j : Instruction} {target : Nat} (h : i.patch target = .ok j) :
    j.isGuideCount = false := by
  have hopcode : j.opcode = i.opcode := (Flow.patch_eq h).1
  have hjump : j.opcode.isJump = true := hopcode ▸ isJump_of_patch h
  cases hcount : j.isGuideCount with
  | false => rfl
  | true =>
    have hpush : j.opcode = .pushindex := by
      unfold isGuideCount at hcount
      split at hcount
      · assumption
      · cases hcount
    rw [hpush] at hjump
    exact absurd hjump (by decide)

theorem Block.Fewer.replace {b c : Block} (h : b.Fewer c) (hd : b.dialect = .imperative) (p : Nat) {j : Instruction}
    (hj : j.isGuideCount = false) :
    ({ b with code := b.code.setIfInBounds p j } : Block).Fewer { c with code := c.code.setIfInBounds p j } := by
  have hcode : c.code = b.code := h.same hd
  have hnone := all_of_uncounted h.code
  have hempty : (c.code.setIfInBounds p j).isEmpty = c.code.isEmpty := by simp [Array.isEmpty]
  rw [← hcode]
  refine ⟨h.outline, ?_, fun _ => rfl, ?_, ?_⟩
  · -- No instruction is left out of code that counts no guides.
    have hall : (c.code.setIfInBounds p j).filter (fun i => !i.isGuideCount) = c.code.setIfInBounds p j := by
      refine Array.filter_eq_self.mpr fun i hi => ?_
      obtain hi | rfl := Array.mem_or_eq_of_mem_setIfInBounds hi
      · rw [hnone i hi]
        rfl
      · rw [hj]
        rfl
    exact congrArg (Array.map Instruction.erase) hall.symm
  · have hbegins := h.begins.1
    unfold Begins at hbegins ⊢
    dsimp only
    rw [hempty, hcode]
    exact hbegins
  · have hbegins := h.begins.2
    unfold Begins at hbegins ⊢
    dsimp only
    rw [hempty]
    exact hbegins

namespace Lowering

namespace Lockstep

variable {α β : Type} {x : Ground} {f : Frame}

/-! ## Imperative code -/

section
variable (hw : x.isWatching = false) (hb : x.Bears f) (hd : f.dialect = .imperative)
include hw hd

/-- In imperative code, what is the same there is the same. -/
theorem alike {m n : Lower α} (h : Lockstep x f (x.Same f) m n) : Lockstep x f Eq m n :=
  h.mono fun _ _ hsame => (hsame hw hd).symm

include hb

theorem place : Lockstep x f Eq Lowering.pc Lowering.pc := alike hw hd (pc hb)

theorem ownCode : Lockstep x f (fun b c => c.code = b.code) (Lowering.getBlock f.block) (Lowering.getBlock f.block) := by
  intro s t hs hst
  have hws : s.session.isWatching = false := hs.isWatching.trans hw
  rw [run_getBlock, run_getBlock]
  obtain ⟨hnone, hnone'⟩ | ⟨b, c, hblock, hblock', hbc⟩ := hst.session.block?_cases f.block
  · rw [hnone, hnone']
    exact .error hst hs
  · rw [hblock, hblock']
    exact .ok (hbc.same ((hs.dialect hb hws hblock).trans hd)) hst hs

theorem replaceCode (p : Nat) {j : Instruction} (hj : j.isGuideCount = false) :
    Lockstep x f Eq (Lowering.modifyBlock f.block fun b => { b with code := b.code.setIfInBounds p j })
      (Lowering.modifyBlock f.block fun b => { b with code := b.code.setIfInBounds p j }) := by
  refine after (getBlock _) (modifySession (fun s t hs hst => hst.modifyBlock _ fun b c hblock hbc => ?_) fun s hs => ?_)
  · exact hbc.replace ((hs.dialect hb (hs.isWatching.trans hw) hblock).trans hd) p hj
  · exact hs.modifyBlock (g := fun b => { b with code := b.code.setIfInBounds p j }) (fun _ => rfl) _

theorem patch (pending target : Nat) : Lockstep x f Eq (patch pending target) (patch pending target) := by
  refine withSession fun s t hs hst => withFrame ?_
  have hws : s.isWatching = false := hs.isWatching.trans hw
  simp only [hst.isWatching, hws, Bool.false_eq_true, if_false, pure_bind]
  refine andThen (ownCode hw hb hd) fun b c hcode => ?_
  rw [hcode]
  split
  · exact defect _
  · split
    · exact defect _
    · next hj => exact replaceCode hw hb hd pending (Instruction.isGuideCount_of_patch hj)

theorem patchAll (pending : List Nat) (target : Nat) :
    Lockstep x f Eq (patchAll pending target) (patchAll pending target) := forM fun p _ => patch hw hb hd p target

omit hw hd in
theorem lowerCondition {condition : Node} (hcondition : condition.Suits x.asks) (span : Span) :
    Lockstep x f Eq (lowerCondition condition span) (lowerCondition condition span) :=
  bind (expression hb hcondition) fun _ => bind classScope fun _ => after (emitPop hb _ _ _) (pure rfl)

theorem lowerIf {body : List Node} (hbody : ∀ n ∈ body, LoweredAlike x.asks n) (span : Span) :
    Lockstep x f Eq (lowerIf statement body span) (lowerIf statement body span) := by
  refine bind (alike hw hd (emitStepping hb rfl _ _)) fun branch => bind (lowerAll hw hb hbody) fun exits => ?_
  exact bind (place hw hb hd) fun p => bind (patch hw hb hd branch p) fun _ => pure rfl

theorem lowerIfElse {body otherwise : List Node} (hbody : ∀ n ∈ body, LoweredAlike x.asks n)
    (hother : ∀ n ∈ otherwise, LoweredAlike x.asks n) (span : Span) :
    Lockstep x f Eq (lowerIfElse statement body otherwise span) (lowerIfElse statement body otherwise span) := by
  refine bind (place hw hb hd) fun p => bind (alike hw hd (emitCjmp hb _ _ _)) fun branch => ?_
  refine bind (lowerAll hw hb hbody) fun first => bind (alike hw hd (emitStepping hb rfl _ _)) fun skip => ?_
  refine bind (place hw hb hd) fun q => bind (patch hw hb hd branch q) fun _ => ?_
  refine bind (lowerAll hw hb hother) fun second => bind (place hw hb hd) fun r => ?_
  exact bind (patch hw hb hd skip r) fun _ => pure rfl

theorem lowerWhile {condition : Node} (hcondition : condition.Suits x.asks) {body : List Node}
    (hbody : ∀ n ∈ body, LoweredAlike x.asks n) (span : Span) :
    Lockstep x f Eq (lowerWhile statement condition body span) (lowerWhile statement condition body span) := by
  have hloop : x.Bears { f with inLoop := true } := ⟨hb.dialect, hb.guided⟩
  refine bind (place hw hb hd) fun start => bind (lowerCondition hb hcondition span) fun _ => ?_
  refine bind (place hw hb hd) fun p => bind (alike hw hd (emitCjmp hb _ _ _)) fun branch => ?_
  refine bind (withReader rfl (lowerAll hw hloop hbody)) fun exits => ?_
  refine bind (patchAll hw hb hd exits.continues start) fun _ => after (emitStepping hb rfl _ _) ?_
  exact bind (place hw hb hd) fun exit => bind (patch hw hb hd branch exit) fun _ => patchAll hw hb hd exits.breaks exit

theorem lowerExit (keyword : String) (span : Span) (exits : Nat → Exits) :
    Lockstep x f Eq (lowerExit keyword span exits) (lowerExit keyword span exits) := by
  refine withFrame (onlyIf (R := Eq) (halt _ _ _) ?_)
  exact bind (alike hw hd (emitStepping hb rfl _ _)) fun jump => pure rfl

end

section
variable (hb : x.Bears f)
include hb

theorem lowerAssignment {target value : Node} (htarget : target.Suits x.asks) (hvalue : value.Suits x.asks) :
    Lockstep x f Eq (lowerAssignment target value) (lowerAssignment target value) := by
  refine bind forgetCallee fun _ => bind (expression hb hvalue) fun type => ?_
  exact bind (assignTo hb htarget type) fun path => pure rfl

theorem lowerDiscarded {n : Node} (hn : n.Suits x.asks) : Lockstep x f Eq (lowerDiscarded n) (lowerDiscarded n) :=
  bind (expression hb hn) fun _ => bind classScope fun _ => after (emitPop hb _ _ _) (pure rfl)

end

/-! ## Statements -/

section
variable (hw : x.isWatching = false) (hb : x.Bears f) {n : Node}
  (hlight : ∀ m : Node, m.weight < n.weight → m.Suits x.asks → LoweredAlike x.asks m) (hn : n.Suits x.asks)
include hw hb hlight hn

theorem associativeStatement :
    Lockstep x f Eq (associativeStatement statement n) (associativeStatement statement n) := by
  have hlist {nodes : List Node} (hparts : ∀ m ∈ nodes, m ∈ n.parts) (hlt : Node.weights nodes < n.weight) :
      ∀ m ∈ nodes, LoweredAlike x.asks m :=
    fun m hm => hlight m (Nat.lt_of_le_of_lt (Node.weight_le_weights hm) hlt) (hn.part (hparts m hm))
  unfold Lowering.associativeStatement
  cases n with
  | assign target value span => exact lowerUpdate hb (hn.part (.head _)) (hn.part (.tail _ (.head _))) span
  | ret value span => exact lowerReturn hb (fun m hm => hn.part (Option.mem_toList.mpr hm)) span
  | varDecl v =>
    refine lowerVariable hw hb fun m hm => hlight m ?_ ?_
    · have hlt := weight_initializer hm
      rw [Node.weight]
      omega
    · exact suits_initializer hm fun value hvalue => hn.part (Option.mem_toList.mpr hvalue)
  | function fn =>
    refine lowerFunction hw (fun m hm => hlight m ?_ (hn.part hm)) false
    have hlt := weight_body_lt hm
    rw [Node.weight]
    omega
  | classDecl c =>
    refine bind mayDeclareClass fun may => ite (lowerClass hw (fun m hm => hlight m ?_) hn) (halt _ _ _)
    rw [Node.weight]
    omega
  | block dialect body span =>
    have hbody : ∀ m ∈ body, LoweredAlike x.asks m := hlist (fun _ hm => hm) (by rw [Node.weight]; omega)
    exact lowerBlock hw hb dialect hbody span
  | branch | loop | breakLoop | continueLoop => exact halt _ _ _
  | _ => exact lowerUnnamed hb hn

theorem imperativeStatement (hd : f.dialect = .imperative) :
    Lockstep x f Eq (imperativeStatement statement n) (imperativeStatement statement n) := by
  have hlist {nodes : List Node} (hparts : ∀ m ∈ nodes, m ∈ n.parts) (hlt : Node.weights nodes < n.weight) :
      ∀ m ∈ nodes, LoweredAlike x.asks m :=
    fun m hm => hlight m (Nat.lt_of_le_of_lt (Node.weight_le_weights hm) hlt) (hn.part (hparts m hm))
  have hplain {m : Lower Unit} (hm : Lockstep x f Eq m m) : Lockstep x f Eq (plain m) (plain m) :=
    after hm (pure rfl)
  unfold Lowering.imperativeStatement
  cases n with
  | assign target value span => exact hplain (lowerAssignment hb (hn.part (.head _)) (hn.part (.tail _ (.head _))))
  | ret value span => exact hplain (returnStatement hb (fun m hm => hn.part (Option.mem_toList.mpr hm)) span)
  | branch condition body otherwise span =>
    simp only [Node.weight] at hlist
    have hbody := hlist (fun m hm => .tail _ (List.mem_append_left _ hm)) (by omega : Node.weights body < _)
    have hother := hlist (fun m hm => .tail _ (List.mem_append_right _ hm)) (by omega : Node.weights otherwise < _)
    refine bind (lowerCondition hb (hn.part (.head _)) span) fun _ => ?_
    exact ite (lowerIf hw hb hd hbody span) (lowerIfElse hw hb hd hbody hother span)
  | loop condition body span =>
    simp only [Node.weight] at hlist
    have hbody := hlist (fun m hm => .tail _ hm) (by omega : Node.weights body < _)
    exact hplain (lowerWhile hw hb hd (hn.part (.head _)) hbody span)
  | breakLoop span => exact lowerExit hw hb hd _ _ _
  | continueLoop span => exact lowerExit hw hb hd _ _ _
  | varDecl v =>
    refine hplain (lowerVariable hw hb fun m hm => hlight m ?_ ?_)
    · have hlt := weight_initializer hm
      rw [Node.weight]
      omega
    · exact suits_initializer hm fun value hvalue => hn.part (Option.mem_toList.mpr hvalue)
  | block dialect body span =>
    have hbody : ∀ m ∈ body, LoweredAlike x.asks m := hlist (fun _ hm => hm) (by rw [Node.weight]; omega)
    exact hplain (lowerBlock hw hb dialect hbody span)
  | function fn =>
    refine hplain (lowerFunction hw (fun m hm => hlight m ?_ (hn.part hm)) false)
    have hlt := weight_body_lt hm
    rw [Node.weight]
    omega
  | classDecl => exact halt _ _ _
  | _ => exact hplain (lowerDiscarded hb hn)

end

end Lockstep

end Lowering

/-- A statement is lowered alike whether guides are asked for or not, if it has none in case they are. -/
theorem Node.Suits.loweredAlike {asks : Bool} {n : Node} (hn : n.Suits asks) : LoweredAlike asks n := by
  induction hk : n.weight using Nat.strongRecOn generalizing n with
  | ind k ih =>
    subst hk
    have hlight (m : Node) (hlt : m.weight < n.weight) (hm : m.Suits asks) : LoweredAlike asks m := ih _ hlt hm rfl
    intro x f hasks hw hb
    subst hasks
    rw [statement_eq]
    refine Lockstep.withFrame ?_
    cases hd : f.dialect with
    | associative => exact .after (.associativeStatement hw hb hlight hn) (.pure rfl)
    | imperative => exact .imperativeStatement hw hb hlight hn hd

end Diglot
