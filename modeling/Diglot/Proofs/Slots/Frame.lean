import Diglot.Proofs.Course.Basic
import Diglot.Proofs.Slots.Basic

/-! # Places in the frames of procedures

The locals of a procedure are the symbols of its body and of the language blocks in it. When its
definition is complete they take the first places of its frame, each of them once, and the parameters
come first (`AllFilled`). While a procedure is being lowered, the count of locals tells how many places
have been taken (`InFrame.current`); a procedure inside of it has a count of its own, and leaves the
locals outside alone (`Apart`).
-/

set_option autoImplicit false

namespace Diglot

open Lowering

/-- The place of a local in the frame of its procedure. -/
def localPlace (k : Nat) : Int := -(13 + (k : Int))

theorem localPlace_injective (j k : Nat) (h : localPlace j = localPlace k) : j = k := by
  unfold localPlace at h
  omega

theorem Bucket.frame_offset (k : Nat) : Bucket.frame.offset k = localPlace k := by
  change -((1 + Bucket.frameSize + k : Nat) : Int) = -(13 + (k : Int))
  unfold Bucket.frameSize
  omega

namespace Session

/-- The procedure that the code of a table belongs to. -/
def procedureOf? (s : Session) (owner : Owner) : Option ProcRef :=
  match owner with
  | .block id => (s.block? id).bind Block.procedure
  | .cls _ => none

/-- A symbol in a block of the procedure that no watch expression declared. -/
def IsLocalOf (s : Session) (W : SymbolRef → Prop) (r : ProcRef) (a : SymbolRef) (x : Symbol) :
    Prop :=
  s.symbol? a = some x ∧ s.procedureOf? a.owner = some r ∧ ¬ W a

/-- The locals of the procedure take the first `n` places of its frame, each of them once. -/
structure Packed (W : SymbolRef → Prop) (s : Session) (r : ProcRef) (n : Nat) : Prop where
  spread : Spread (s.IsLocalOf W r) Symbol.offset localPlace n
  taken : ∀ k, k < n → ∃ a x, s.IsLocalOf W r a x ∧ x.offset = localPlace k

/-- The locals of a procedure whose definition is complete: the parameters are the first ones. -/
structure Filled (W : SymbolRef → Prop) (s : Session) (r : ProcRef) (p : Procedure) : Prop where
  packed : Packed W s r p.locals
  params : ∃ body, p.block = some body ∧ ∀ i arg, p.args[i]? = some arg →
    ∃ x, s.IsLocalOf W r ⟨.block body, i⟩ x ∧ x.name = arg.name ∧ x.type = arg.type ∧
      x.isParameter = true ∧ x.offset = localPlace i

/-- All procedures that were compiled to the end are filled. -/
def AllFilled (W : SymbolRef → Prop) (s : Session) : Prop :=
  ∀ r p, s.procedure? r = some p → p.entry.isSome → (∃ owner, s.procedureOf? owner = some r) →
    Filled W s r p

variable {W : SymbolRef → Prop} {s t u : Session} {r : ProcRef} {f g : Frame}

/-! ## Locals that stay as they are -/

theorem procedureOf?_eq (s : Session) (id : Nat) :
    s.procedureOf? (.block id) = (s.header? id).bind Header.procedure := by
  unfold procedureOf? header?
  dsimp only
  cases s.block? id <;> rfl

theorem procedureOf?_of_headers (hh : t.header? = s.header?) : t.procedureOf? = s.procedureOf? := by
  funext owner
  cases owner with
  | block id => rw [procedureOf?_eq, procedureOf?_eq, hh]
  | cls cls => rfl

/-- The procedure has the same locals as before. -/
def SameLocals (W : SymbolRef → Prop) (r : ProcRef) (s t : Session) : Prop :=
  ∀ a x, t.IsLocalOf W r a x ↔ s.IsLocalOf W r a x

theorem SameLocals.trans (h : SameLocals W r s t) (h' : SameLocals W r t u) : SameLocals W r s u :=
  fun a x => (h' a x).trans (h a x)

theorem sameLocals_of_tables (hs : t.symbol? = s.symbol?) (hp : t.procedureOf? = s.procedureOf?) :
    SameLocals W r s t := by
  intro a x
  unfold IsLocalOf
  rw [hs, hp]

section Congr

variable {V : SymbolRef → Prop} (hst : ∀ a x, t.IsLocalOf V r a x ↔ s.IsLocalOf W r a x)

include hst

theorem Packed.congr {n : Nat} (h : Packed W s r n) : Packed V t r n := by
  refine ⟨h.spread.mono (fun a x => (hst a x).mp) (Nat.le_refl n), fun k hk => ?_⟩
  obtain ⟨a, x, hx, hplace⟩ := h.taken k hk
  exact ⟨a, x, (hst a x).mpr hx, hplace⟩

theorem Filled.congr {p : Procedure} (h : Filled W s r p) : Filled V t r p := by
  obtain ⟨body, hbody, hparams⟩ := h.params
  refine ⟨h.packed.congr hst, body, hbody, fun i arg harg => ?_⟩
  obtain ⟨x, hx, hrest⟩ := hparams i arg harg
  exact ⟨x, (hst _ x).mpr hx, hrest⟩

end Congr

/-- A procedure that blocks belong to is registered. -/
theorem registered_of_defined {owner : Owner} (h : s.Coherent)
    (howner : s.procedureOf? owner = some r) : (s.procedure? r).isSome := by
  cases owner with
  | cls cls => cases howner
  | block id =>
    rw [procedureOf?_eq] at howner
    obtain ⟨hd, hs, hproc⟩ := Option.bind_eq_some_iff.mp howner
    obtain ⟨p, body, c, hp, _⟩ := h.bodies id hd r hs hproc
    rw [hp]
    rfl

/-- The procedures that code belongs to keep their locals. -/
theorem AllFilled.keeps (h : AllFilled W s) (hs : s.Coherent)
    (howners : ∀ owner r, t.procedureOf? owner = some r → s.procedureOf? owner = some r)
    (hprocs : ∀ r q, s.procedure? r = some q → t.procedure? r = some q)
    (hsame : ∀ r, SameLocals W r s t) : AllFilled W t := by
  intro r p hp hentry ⟨owner, howner⟩
  have howner := howners owner r howner
  obtain ⟨q, hq⟩ := Option.isSome_iff_exists.mp (registered_of_defined hs howner)
  cases (hprocs r q hq).symm.trans hp
  exact (h r p hq hentry ⟨owner, howner⟩).congr (hsame r)

theorem AllFilled.congr (h : AllFilled W s) (hs : t.symbol? = s.symbol?)
    (hp : t.procedureOf? = s.procedureOf?) (hprocs : t.procedure? = s.procedure?) :
    AllFilled W t := by
  intro r p hr hentry hdefined
  rw [hprocs] at hr
  rw [hp] at hdefined
  exact (h r p hr hentry hdefined).congr (sameLocals_of_tables hs hp)

theorem IsLocalOf.grows {a : SymbolRef} {x : Symbol} (h : s.IsLocalOf W r a x) (hst : s.Grows t) :
    t.IsLocalOf W r a x := by
  obtain ⟨hx, hr, hnot⟩ := h
  refine ⟨hst.symbols a x hx, ?_, hnot⟩
  obtain ⟨owner, i⟩ := a
  cases owner with
  | cls cls => cases hr
  | block id =>
    rw [procedureOf?_eq] at hr ⊢
    obtain ⟨hd, hs, hproc⟩ := Option.bind_eq_some_iff.mp hr
    obtain ⟨hd', ht, hproc'⟩ := hst.keeps id hd hs
    rw [ht]
    exact hproc'.trans hproc

section New

variable {parent : Option Nat} {procedure : Option ProcRef}
  (hnew : ∀ id, t.header? id =
    if id = s.blocks.size then some ⟨parent, procedure, {}⟩ else s.header? id)

include hnew

theorem procedureOf?_of_new (owner : Owner) :
    t.procedureOf? owner = if owner = .block s.blocks.size then procedure else s.procedureOf? owner := by
  cases owner with
  | cls cls => exact (if_neg nofun).symm
  | block id =>
    rw [procedureOf?_eq, procedureOf?_eq, hnew]
    by_cases hid : id = s.blocks.size
    · rw [if_pos hid, if_pos (by rw [hid])]
      rfl
    · rw [if_neg hid, if_neg fun heq => hid (Owner.block.inj heq)]

/-- A new block has no symbols yet. -/
theorem sameLocals_of_new (hs : t.symbol? = s.symbol?) : SameLocals W r s t := by
  intro ⟨owner, i⟩ x
  unfold IsLocalOf
  rw [hs]
  refine and_congr_right fun hx => ?_
  rw [procedureOf?_of_new hnew, if_neg]
  rintro rfl
  rw [symbol?_block] at hx
  obtain ⟨hd, hid, _⟩ := Option.bind_eq_some_iff.mp hx
  exact absurd (lt_of_header? hid) (Nat.lt_irrefl _)

end New

/-! ## Declarations -/

theorem procedureOf?_enterLocal (s : Session) (id : Nat) (x : Symbol) :
    (s.enterLocal id x).procedureOf? = s.procedureOf? := by
  funext owner
  cases owner with
  | cls cls => rfl
  | block other =>
    unfold procedureOf? enterLocal
    dsimp only
    rw [block?_modifyBlock]
    split
    · cases s.block? other <;> rfl
    · rfl

theorem procedureOf?_declare (s : Session) (f : Frame) (d : Declaration) :
    (s.declare f d).procedureOf? = s.procedureOf? := by
  obtain ⟨cls, counters, _, _, _, _, heq⟩ | ⟨counters, _, _, heq⟩ := s.declare_cases f d
  · rw [heq]
    unfold enterMember
    split
    · exact procedureOf?_enterLocal { s with counters, classes := _ } 0 _
    · rfl
  · rw [heq]
    exact procedureOf?_enterLocal { s with counters } f.block _

theorem procedure?_declare (s : Session) (f : Frame) (d : Declaration) :
    (s.declare f d).procedure? = s.procedure? := by
  have hclass (u : Session) (cls : Nat) (x : Symbol) :
      ({ u with classes := u.classes.appendSymbol cls x } : Session).procedure? = u.procedure? :=
    procedure?_modifyClass (g := fun c => { c with symbols := c.symbols.append x }) (fun _ => rfl) u cls
  obtain ⟨cls, counters, _, _, _, _, heq⟩ | ⟨counters, _, _, heq⟩ := s.declare_cases f d
  · rw [heq]
    unfold enterMember
    split
    · exact (procedure?_congr rfl rfl).trans (hclass { s with counters } cls _)
    · exact hclass { s with counters } cls _
  · rw [heq]
    exact procedure?_congr rfl rfl

/-- What is compiled in a procedure is entered into the table of the current block. -/
theorem header?_declare_local {s : Session} {f : Frame} (d : Declaration) {hd : Header}
    (hs : s.header? f.block = some hd) (hproc : f.scope.procedure.isSome) :
    (s.declare f d).header? f.block =
      some { hd with symbols := hd.symbols.append (s.declared f d) } := by
  obtain ⟨cls, _, _, hnone, _⟩ | ⟨counters, _, _, heq⟩ := s.declare_cases f d
  · rw [hnone] at hproc
    cases hproc
  · have hs' : ({ s with counters } : Session).header? f.block = some hd := hs
    rw [heq]
    unfold enterLocal
    rw [header?_modifyBlock_eq (k := fun h => { h with symbols := h.symbols.append (s.declared f d) })
      (fun _ => rfl), if_pos rfl, hs', Option.map_some]

/-- A declaration adds a local to the procedure that is being compiled, and to no other one. -/
theorem isLocalOf_declare {w : Bool} {d : Declaration} (hs : (s.declare f d).Coherent)
    (hplaced : f.Placed s) (htells : s.Foretells w W) {a : SymbolRef} {x : Symbol}
    (h : (s.declare f d).IsLocalOf W r a x) :
    s.IsLocalOf W r a x ∨
      w = false ∧ f.scope.procedure = some r ∧ a = s.next (.block f.block) ∧
        x = { s.declared f d with position := (s.next (.block f.block)).index } := by
  obtain ⟨hx, hr, hnot⟩ := h
  have hr' : s.procedureOf? a.owner = some r := procedureOf?_declare s f d ▸ hr
  rcases s.symbol?_declare f d with ⟨cls, _, _, _, hcases⟩ | ⟨_, hcases⟩
  · rcases hcases a x hx with hold | ⟨rfl, _⟩ | ⟨⟨id, hid⟩, hmember⟩
    · exact .inl ⟨hold, hr', hnot⟩
    · cases hr
    · -- A mirror stands in a block that belongs to no procedure.
      obtain ⟨owner, i⟩ := a
      cases hid
      rw [procedureOf?_eq] at hr
      obtain ⟨hd, hhd, hproc⟩ := Option.bind_eq_some_iff.mp hr
      rw [symbol?_block, hhd] at hx
      have hfn := (hs.entries id hd hhd i x hx).2
      rw [hproc] at hfn
      simp [Symbol.isMember, hfn] at hmember
  · rcases hcases a x hx with hold | ⟨rfl, rfl⟩
    · exact .inl ⟨hold, hr', hnot⟩
    · refine .inr ⟨Bool.eq_false_iff.mpr fun hw => ?_, ?_, rfl, rfl⟩
      · exact hnot ((htells _ (s.symbol?_next _)).mpr hw)
      · obtain ⟨hd, hhd, hproc⟩ := hplaced.block
        rw [next_block hhd] at hr'
        rw [← hproc]
        rw [procedureOf?_eq, hhd] at hr'
        exact hr'

theorem offset_declared {d : Declaration}
    (hbucket : bucketOf s.isWatching f.scope d.isStatic = .frame) :
    (s.declared f d).offset = localPlace s.counters.locals := by
  change (bucketOf s.isWatching f.scope d.isStatic).offset _ = _
  rw [hbucket, ← Bucket.frame_offset]
  rfl

end Session

/-! ## Procedures that are being lowered -/

namespace Lowering

open Session

variable {w : Bool} {W : SymbolRef → Prop} {s t u : Session} {f g : Frame}

/-- What holds of the frames of procedures while a call is lowered. The procedure that is being compiled
has no entry yet, and the count of locals is its own. -/
structure InFrame (w : Bool) (W : SymbolRef → Prop) (f : Frame) (s : Session) : Prop where
  coherent : s.Coherent
  placed : f.Placed s
  mode : s.isWatching = w
  foretells : s.Foretells w W
  done : s.AllFilled W
  current : w = false → ∀ r, f.scope.procedure = some r →
    Packed W s r s.counters.locals ∧
      ∀ p, s.procedure? r = some p → p.entry = none ∧ p.block = f.scope.body

/-- Lowering in the frame leaves all procedures alone but the one that is being compiled. -/
def Apart (w : Bool) (W : SymbolRef → Prop) (f : Frame) (s t : Session) : Prop :=
  ∀ r, (w = false → f.scope.procedure ≠ some r) → (s.procedure? r).isSome →
    SameLocals W r s t ∧ t.procedure? r = s.procedure? r

theorem Apart.trans (h : Apart w W f s t) (h' : Apart w W f t u) : Apart w W f s u := by
  intro r hne hr
  obtain ⟨hsame, hproc⟩ := h r hne hr
  obtain ⟨hsame', hproc'⟩ := h' r hne (hproc ▸ hr)
  exact ⟨hsame.trans hsame', hproc'.trans hproc⟩

theorem Apart.ofTables (hs : t.symbol? = s.symbol?) (hp : t.procedureOf? = s.procedureOf?)
    (hprocs : t.procedure? = s.procedure?) : Apart w W f s t :=
  fun r _ _ => ⟨sameLocals_of_tables hs hp, congrFun hprocs r⟩

/-- How a stretch of lowering in the frame ended. -/
structure Advanced (w : Bool) (W : SymbolRef → Prop) (f : Frame) (s t : Session) : Prop where
  inFrame : InFrame w W f t
  apart : Apart w W f s t
  grows : s.Grows t

theorem Advanced.trans (h : Advanced w W f s t) (h' : Advanced w W f t u) : Advanced w W f s u :=
  ⟨h'.inFrame, h.apart.trans h'.apart, h.grows.trans h'.grows⟩

theorem Advanced.refl (h : InFrame w W f s) : Advanced w W f s s :=
  ⟨h, .ofTables rfl rfl rfl, .refl s⟩

theorem InFrame.site (h : InFrame w W f s) (hsite : g.site = f.site) : InFrame w W g s := by
  have hblock : g.block = f.block := (congrArg Frame.block hsite : g.site.block = f.site.block)
  have hscope : g.scope = f.scope := (congrArg Frame.scope hsite : g.site.scope = f.site.scope)
  refine ⟨h.coherent, ⟨?_, ?_⟩, h.mode, h.foretells, h.done, ?_⟩
  · rw [hblock, hscope]
    exact h.placed.block
  · rw [hscope]
    exact h.placed.body
  · rw [hscope]
    exact h.current

theorem index_next_declare (h : f.Placed s) (d : Declaration) (hproc : f.scope.procedure.isSome) :
    ((s.declare f d).next (.block f.block)).index = (s.next (.block f.block)).index + 1 := by
  obtain ⟨hd, hs, _⟩ := h.block
  rw [next_block (header?_declare_local d hs hproc), next_block hs]
  exact SymbolTable.size_append _ _

theorem Advanced.site (h : Advanced w W f s t) (hsite : g.site = f.site) : Advanced w W g s t := by
  have hscope : g.scope = f.scope := (congrArg Frame.scope hsite : g.site.scope = f.site.scope)
  refine ⟨h.inFrame.site hsite, fun r hne hr => ?_, h.grows⟩
  rw [hscope] at hne
  exact h.apart r hne hr

/-- A variable that is compiled in a procedure is a local of it. -/
theorem InFrame.declared_isLocalOf {r : ProcRef} (h : InFrame w W f s) (d : Declaration)
    (hw : w = false) (hr : f.scope.procedure = some r) :
    (s.declare f d).IsLocalOf W r (s.next (.block f.block))
      { s.declared f d with position := (s.next (.block f.block)).index } := by
  obtain ⟨hd, hs, hproc⟩ := h.placed.block
  refine ⟨?_, ?_, ?_⟩
  · rw [next_block hs, symbol?_block, header?_declare_local d hs (by rw [hr]; rfl)]
    exact SymbolTable.get?_append_size _ _
  · rw [next_block hs, procedureOf?_declare, procedureOf?_eq, hs]
    exact hproc.trans hr
  · rw [h.foretells _ (s.symbol?_next _), hw]
    exact Bool.false_ne_true

/-- Tables that are the same for symbols and procedures. -/
theorem InFrame.same (h : InFrame w W f s) (hcoherent : t.Coherent) (hgrows : s.Grows t)
    (hsymbols : t.symbol? = s.symbol?) (howners : t.procedureOf? = s.procedureOf?)
    (hprocs : t.procedure? = s.procedure?) (hl : t.counters.locals = s.counters.locals)
    (hm : t.isWatching = s.isWatching) : Advanced w W f s t := by
  refine ⟨⟨hcoherent, h.placed.keeps hgrows.keeps, hm.trans h.mode, h.foretells.grows hgrows,
    h.done.congr hsymbols howners hprocs, fun hw r hr => ?_⟩, .ofTables hsymbols howners hprocs, hgrows⟩
  obtain ⟨hpacked, hentry⟩ := h.current hw r hr
  rw [hl, hprocs]
  exact ⟨hpacked.congr (sameLocals_of_tables hsymbols howners), hentry⟩

theorem InFrame.declare {K : OpCode → Prop} (h : InFrame w W f s) {d : Declaration}
    (hc : Change K f s (s.declare f d)) : Advanced w W f s (s.declare f d) := by
  have hcoherent := hc.coherent h.coherent h.placed
  have hprocs := procedure?_declare s f d
  -- All locals but those of the current procedure are as before.
  have hsame (r : ProcRef) (hne : w = false → f.scope.procedure ≠ some r) :
      SameLocals W r s (s.declare f d) := by
    refine fun a x => ⟨fun hx => ?_, fun hx => hx.grows hc.grows⟩
    rcases isLocalOf_declare hcoherent h.placed h.foretells hx with hx | ⟨hw, hr, _⟩
    · exact hx
    · exact absurd hr (hne hw)
  refine ⟨⟨hcoherent, h.placed.keeps hc.keeps, hc.isWatching_eq.trans h.mode,
    h.foretells.grows hc.grows, fun r p hp hentry hdefined => ?_, fun hw r hr => ?_⟩,
    fun r hne _ => ⟨hsame r hne, congrFun hprocs r⟩, hc.grows⟩
  · rw [hprocs] at hp
    rw [procedureOf?_declare] at hdefined
    refine (h.done r p hp hentry hdefined).congr (hsame r fun hw hr => ?_)
    rw [((h.current hw r hr).2 p hp).1] at hentry
    cases hentry
  · obtain ⟨hpacked, hentry⟩ := h.current hw r hr
    rw [hprocs]
    refine ⟨?_, hentry⟩
    have hbucket : bucketOf s.isWatching f.scope d.isStatic = .frame :=
      bucketOf_eq_frame.mpr ⟨h.mode.trans hw, by rw [hr]; rfl⟩
    have hoffset := offset_declared hbucket
    rw [locals_declare, if_pos hbucket]
    refine ⟨hpacked.spread.extend localPlace_injective (s.next (.block f.block)) fun a x hx => ?_,
      fun k hk => ?_⟩
    · rcases isLocalOf_declare hcoherent h.placed h.foretells hx with hx | ⟨_, _, ha, rfl⟩
      · exact .inl hx
      · exact .inr ⟨ha, hoffset⟩
    · by_cases hlast : k < s.counters.locals
      · obtain ⟨a, x, hx, hplace⟩ := hpacked.taken k hlast
        exact ⟨a, x, hx.grows hc.grows, hplace⟩
      · have hk' : k = s.counters.locals := by omega
        exact ⟨_, _, h.declared_isLocalOf d hw hr, hk' ▸ hoffset⟩

theorem InFrame.change {K : OpCode → Prop} (h : InFrame w W f s) (hc : Change K f s t) :
    Advanced w W f s t := by
  rcases hc.unmoved_or_declare with ⟨d, rfl⟩ | ⟨hsame, n, hn⟩
  · exact h.declare hc
  · refine h.same (h.coherent.sameNames hsame) hsame.grows
      (symbol?_of_tables hsame.classes hsame.headers) (procedureOf?_of_headers hsame.headers)
      (procedure?_congr hsame.classes hsame.procedures) ?_ hc.isWatching_eq
    rw [hn]

theorem InFrame.emit (h : InFrame w W f s) (hcan : s.CanEmit f.block) (i : Instruction) (span : Span)
    (pc : Nat) : Advanced w W f s ((s.noteEmission f pc i).emit f.block i span) := by
  have hnote : Advanced w W f s (s.noteEmission f pc i) ∧ (s.noteEmission f pc i).CanEmit f.block := by
    unfold noteEmission
    split
    · exact ⟨h.change (K := fun _ => True) (.note ..), hcan⟩
    · exact ⟨.refl h, hcan⟩
  exact hnote.1.trans (hnote.1.inFrame.change (K := fun _ => True) (.emit i span trivial hnote.2))

end Lowering

end Diglot
