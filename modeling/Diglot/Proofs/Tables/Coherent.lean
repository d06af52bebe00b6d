import Diglot.Proofs.Evolution.Basic
import Diglot.Proofs.Sight

/-! # Tables in order

What the tables of a session have to do with each other, whatever has been compiled.

* `Session.Coherent` says that every entry knows its position and its procedure, which procedures may
  stand inside of which, and that a procedure knows its body.
* `Frame.Placed` says that a frame stands in a block of its own procedure.
* `Session.Keeps` says that blocks stay where they are, with the procedures that they belong to.

Entering a symbol, changing a procedure, and adding a block or a class each keep the tables in order.
-/

set_option autoImplicit false

namespace Diglot

open Lowering

/-- Every entry knows its position. -/
def SymbolTable.Numbered (t : SymbolTable) : Prop := ∀ i x, t.get? i = some x → x.position = i

theorem SymbolTable.get?_append_cases {t : SymbolTable} {y x : Symbol} {i : Nat}
    (h : (t.append y).get? i = some x) :
    t.get? i = some x ∨ i = t.size ∧ x = { y with position := t.size } := by
  by_cases hi : i < t.size
  · rw [get?_append_of_lt y hi] at h
    exact .inl h
  · have hlt : i < (t.append y).size := (Array.getElem?_eq_some_iff.mp h).1
    rw [size_append] at hlt
    have heq : i = t.size := by omega
    subst heq
    rw [get?_append_size] at h
    exact .inr ⟨rfl, (Option.some.inj h).symm⟩

theorem SymbolTable.numbered_empty : ({} : SymbolTable).Numbered := by
  intro i x h
  cases h

theorem SymbolTable.Numbered.append {t : SymbolTable} (h : t.Numbered) (y : Symbol) :
    (t.append y).Numbered := by
  intro i x hx
  rcases get?_append_cases hx with hx | ⟨rfl, rfl⟩
  · exact h i x hx
  · rfl

/-- Every entry of a block knows its position and belongs to the procedure of the block. -/
def Header.Filed (h : Header) : Prop :=
  ∀ i x, h.symbols.get? i = some x → x.position = i ∧ x.function = h.procedure.map ProcRef.index

theorem Header.filed_empty (parent : Option Nat) (procedure : Option ProcRef) :
    Header.Filed ⟨parent, procedure, {}⟩ := by
  intro i x h
  cases h

theorem Header.Filed.append {h : Header} (hf : h.Filed) {y : Symbol}
    (hy : y.function = h.procedure.map ProcRef.index) :
    Header.Filed { h with symbols := h.symbols.append y } := by
  intro i x hx
  rcases SymbolTable.get?_append_cases hx with hx | ⟨rfl, rfl⟩
  · exact hf i x hx
  · exact ⟨rfl, hy⟩

namespace Session

/-- A block of procedure `inner` may stand in a block of procedure `outer`: both are the same, there
is none outside, or the inner one is a function and no method. -/
def CanSurround (outer inner : Option ProcRef) : Prop :=
  outer = inner ∨ outer = none ∨ ∃ r, inner = some r ∧ r.classScope = none

/-- The tables of the session are in order. -/
structure Coherent (s : Session) : Prop where
  entries : ∀ id h, s.header? id = some h → h.Filed
  members : ∀ cls c, s.classes.get? cls = some c → c.symbols.Numbered
  first : ∀ h, s.header? 0 = some h → h.procedure = none
  around : ∀ id h p, s.header? id = some h → h.parent = some p →
    ∃ c, s.header? p = some c ∧ CanSurround c.procedure h.procedure
  bodies : ∀ id h r, s.header? id = some h → h.procedure = some r →
    ∃ p body c, s.procedure? r = some p ∧ p.block = some body ∧ s.header? body = some c ∧
      c.procedure = some r

end Session

/-- The frame stands in a block of its procedure, and so does the body that it names. -/
structure Lowering.Frame.Placed (f : Frame) (s : Session) : Prop where
  block : ∃ h, s.header? f.block = some h ∧ h.procedure = f.scope.procedure
  body : ∀ id, f.scope.body = some id →
    ∃ h, s.header? id = some h ∧ h.procedure = f.scope.procedure

namespace Session

/-! ## Blocks keep their procedures -/

/-- The blocks are still there, and belong to the same procedures. -/
def Keeps (s t : Session) : Prop :=
  ∀ id h, s.header? id = some h → ∃ h', t.header? id = some h' ∧ h'.procedure = h.procedure

theorem Keeps.refl (s : Session) : s.Keeps s := fun _ h hs => ⟨h, hs, rfl⟩

theorem Keeps.trans {s t u : Session} (h : s.Keeps t) (h' : t.Keeps u) : s.Keeps u := by
  intro id hd hs
  obtain ⟨hd', ht, hproc⟩ := h id hd hs
  obtain ⟨hd'', hu, hproc'⟩ := h' id hd' ht
  exact ⟨hd'', hu, hproc'.trans hproc⟩

theorem SameNames.keeps {s t : Session} (h : s.SameNames t) : s.Keeps t := by
  intro id hd hs
  exact ⟨hd, by rw [h.headers, hs], rfl⟩

/-- A header that changes only its symbols keeps its procedure. -/
theorem keeps_enterLocal (s : Session) (id : Nat) (x : Symbol) : s.Keeps (s.enterLocal id x) := by
  intro other h hs
  unfold enterLocal
  rw [header?_modifyBlock_eq (k := fun h => { h with symbols := h.symbols.append x }) (fun _ => rfl)]
  split
  · rw [hs]
    exact ⟨_, rfl, rfl⟩
  · exact ⟨h, hs, rfl⟩

theorem keeps_of_new {s t : Session} {new : Header}
    (hnew : ∀ id, t.header? id = if id = s.blocks.size then some new else s.header? id) :
    s.Keeps t := by
  intro id h hs
  obtain ⟨b, hb, _⟩ := header?_eq_some.mp hs
  have hlt : id < s.blocks.size := (Array.getElem?_eq_some_iff.mp hb).1
  rw [hnew, if_neg (by omega)]
  exact ⟨h, hs, rfl⟩

end Session

theorem Lowering.Frame.Placed.keeps {f : Frame} {s t : Session} (h : f.Placed s) (hk : s.Keeps t) :
    f.Placed t := by
  constructor
  · obtain ⟨hd, hs, hproc⟩ := h.block
    obtain ⟨hd', ht, hproc'⟩ := hk _ _ hs
    exact ⟨hd', ht, hproc'.trans hproc⟩
  · intro id hid
    obtain ⟨hd, hs, hproc⟩ := h.body id hid
    obtain ⟨hd', ht, hproc'⟩ := hk _ _ hs
    exact ⟨hd', ht, hproc'.trans hproc⟩

namespace Session

/-! ## Tables that stay as they are -/

theorem procedure?_congr {s t : Session} (hc : t.classes = s.classes)
    (hp : t.procedures = s.procedures) : t.procedure? = s.procedure? := by
  funext r
  unfold procedure?
  rw [hc, hp]

/-- Only the headers of blocks and the tables of classes and procedures matter. -/
theorem Coherent.congr {s t : Session} (h : s.Coherent) (hc : t.classes = s.classes)
    (hp : t.procedures = s.procedures) (hh : t.header? = s.header?) : t.Coherent := by
  have hproc := procedure?_congr hc hp
  refine ⟨?_, ?_, ?_, ?_, ?_⟩
  · rw [hh]
    exact h.entries
  · rw [hc]
    exact h.members
  · rw [hh]
    exact h.first
  · rw [hh]
    exact h.around
  · rw [hh, hproc]
    exact h.bodies

theorem Coherent.sameNames {s t : Session} (h : s.Coherent) (hst : s.SameNames t) : t.Coherent :=
  h.congr hst.classes hst.procedures hst.headers

/-! ## Declarations -/

theorem Coherent.enterLocal {s : Session} (h : s.Coherent) {id : Nat} {x : Symbol}
    (hx : ∀ hd, s.header? id = some hd → x.function = hd.procedure.map ProcRef.index) :
    (s.enterLocal id x).Coherent := by
  have hheader := header?_modifyBlock_eq (g := fun b => { b with symbols := b.symbols.append x })
    (k := fun h => { h with symbols := h.symbols.append x }) (fun _ => rfl) s id
  -- Whatever a header of the new session says but for its symbols, an old one said.
  have hold (other : Nat) (h' : Header) (h'' : (s.enterLocal id x).header? other = some h') :
      ∃ h₀, s.header? other = some h₀ ∧ h₀.parent = h'.parent ∧ h₀.procedure = h'.procedure := by
    unfold Session.enterLocal at h''
    rw [hheader] at h''
    split at h''
    · obtain ⟨hd, hs, rfl⟩ := Option.map_eq_some_iff.mp h''
      exact ⟨hd, hs, rfl, rfl⟩
    · exact ⟨h', h'', rfl, rfl⟩
  have hkeeps := keeps_enterLocal s id x
  refine ⟨?_, h.members, ?_, ?_, ?_⟩
  · intro other h' h''
    unfold Session.enterLocal at h''
    rw [hheader] at h''
    split at h''
    · next heq =>
      subst heq
      obtain ⟨hd, hs, rfl⟩ := Option.map_eq_some_iff.mp h''
      exact (h.entries id hd hs).append (hx hd hs)
    · exact h.entries other h' h''
  · intro h' h''
    obtain ⟨h₀, hs₀, _, hproc⟩ := hold 0 h' h''
    rw [← hproc]
    exact h.first h₀ hs₀
  · intro other h' p h'' hp
    obtain ⟨h₀, hs₀, hparent, hproc⟩ := hold other h' h''
    obtain ⟨c, hc, hsur⟩ := h.around other h₀ p hs₀ (hparent.trans hp)
    obtain ⟨c', hc', hcproc⟩ := hkeeps p c hc
    exact ⟨c', hc', by rwa [hcproc, ← hproc]⟩
  · intro other h' r h'' hr
    obtain ⟨h₀, hs₀, _, hproc⟩ := hold other h' h''
    obtain ⟨p, body, c, hp, hbody, hc, hcr⟩ := h.bodies other h₀ r hs₀ (hproc.trans hr)
    obtain ⟨c', hc', hcproc⟩ := hkeeps body c hc
    exact ⟨p, body, c', hp, hbody, hc', hcproc.trans hcr⟩

end Session

theorem ClassTable.get?_modify (t : ClassTable) (i j : Nat) (g : Class → Class) :
    (t.modify i g).get? j = if i = j then (t.get? j).map g else t.get? j :=
  Array.getElem?_modify

theorem ClassTable.get?_size (t : ClassTable) : t.get? t.size = none := Array.getElem?_size

theorem ClassTable.append?_eq_some {t u : ClassTable} {c : Class} :
    t.append? c = some u ↔ t.indexOf? c.name = none ∧ ⟨t.classes.push c⟩ = u := by
  simp [append?]

theorem ClassTable.append?_eq_none {t : ClassTable} {c : Class} :
    t.append? c = none ↔ (t.indexOf? c.name).isSome = true := by
  simp [append?, Option.isSome_iff_ne_none]

/-- A class that is added is the last one. -/
theorem ClassTable.get?_append? {t u : ClassTable} {c : Class} (h : t.append? c = some u) (i : Nat) :
    u.get? i = if i = t.size then some c else t.get? i := by
  obtain ⟨-, rfl⟩ := append?_eq_some.mp h
  exact Array.getElem?_push

theorem ClassTable.size_append? {t u : ClassTable} {c : Class} (h : t.append? c = some u) : u.size = t.size + 1 := by
  obtain ⟨-, rfl⟩ := append?_eq_some.mp h
  exact Array.size_push c

/-- The class that was added is found behind the others. -/
theorem ClassTable.isSome_get?_append? {t u : ClassTable} {c : Class} (h : t.append? c = some u) :
    (u.get? t.size).isSome := by
  rw [get?_append? h, if_pos rfl]
  rfl

theorem ProcedureTable.get?_modify (t : ProcedureTable) (i j : Nat) (g : Procedure → Procedure) :
    (t.modify i g).get? j = if i = j then (t.get? j).map g else t.get? j :=
  Array.getElem?_modify

theorem ProcedureTable.get?_append_of_some {t : ProcedureTable} {i : Nat} {q : Procedure}
    (h : t.get? i = some q) (p : Procedure) : (t.append p).get? i = some q := by
  have hlt : i < t.procedures.size := (Array.getElem?_eq_some_iff.mp h).1
  unfold get? append
  rw [Array.getElem?_push, if_neg (by omega)]
  exact h

namespace Session

theorem procedure?_none (s : Session) (i : Nat) :
    s.procedure? ⟨none, i⟩ = s.procedures.get? i := rfl

theorem procedure?_some (s : Session) (cls i : Nat) :
    s.procedure? ⟨some cls, i⟩ = (s.classes.get? cls).bind fun c => c.procedures.get? i := rfl

/-- Changing a class but for its procedures changes no procedure. -/
theorem procedure?_modifyClass {g : Class → Class} (hg : ∀ c, (g c).procedures = c.procedures)
    (s : Session) (cls : Nat) :
    procedure? { s with classes := s.classes.modify cls g } = s.procedure? := by
  funext r
  obtain ⟨owner, i⟩ := r
  cases owner with
  | none => rfl
  | some c =>
    rw [procedure?_some, procedure?_some, ClassTable.get?_modify]
    split
    · cases s.classes.get? c with
      | none => rfl
      | some k => simp only [Option.map_some, Option.bind_some, hg]
    · rfl

theorem Coherent.appendSymbol {s : Session} (h : s.Coherent) (cls : Nat) (x : Symbol) :
    Coherent { s with classes := s.classes.appendSymbol cls x } := by
  refine ⟨h.entries, ?_, h.first, h.around, ?_⟩
  · intro other c hc
    unfold ClassTable.appendSymbol at hc
    rw [ClassTable.get?_modify] at hc
    split at hc
    · obtain ⟨k, hk, rfl⟩ := Option.map_eq_some_iff.mp hc
      exact (h.members other k hk).append x
    · exact h.members other c hc
  · have hproc := procedure?_modifyClass (g := fun c => { c with symbols := c.symbols.append x })
      (fun _ => rfl) s cls
    unfold ClassTable.appendSymbol
    rw [hproc]
    exact h.bodies

theorem Coherent.enterMember {s : Session} (h : s.Coherent) (cls : Nat) {x : Symbol}
    (hx : x.function = none) : (s.enterMember cls x).Coherent := by
  have hclass := h.appendSymbol cls x
  unfold Session.enterMember
  split
  · refine hclass.enterLocal (x := { x with block := 0 }) fun hd hzero => ?_
    rw [h.first hd hzero]
    exact hx
  · exact hclass

/-! ## Procedures -/

theorem procedure?_modifyProcedure (s : Session) (r q : ProcRef) (g : Procedure → Procedure) :
    (s.modifyProcedure r g).procedure? q =
      if r = q then (s.procedure? q).map g else s.procedure? q := by
  obtain ⟨owner, i⟩ := r
  obtain ⟨owner', j⟩ := q
  cases owner with
  | none =>
    cases owner' with
    | none =>
      rw [procedure?_none, procedure?_none]
      refine (ProcedureTable.get?_modify s.procedures i j g).trans ?_
      by_cases hij : i = j
      · rw [if_pos hij, if_pos (by rw [hij])]
      · rw [if_neg hij, if_neg (fun heq => hij (congrArg ProcRef.index heq))]
    | some c =>
      rw [if_neg (by simp)]
      rfl
  | some c =>
    cases owner' with
    | none =>
      rw [if_neg (by simp)]
      rfl
    | some c' =>
      rw [procedure?_some, procedure?_some]
      unfold modifyProcedure
      dsimp only
      rw [ClassTable.get?_modify]
      by_cases hc : c = c'
      · subst hc
        rw [if_pos rfl]
        cases s.classes.get? c with
        | none => simp
        | some k =>
          rw [Option.map_some, Option.bind_some, Option.bind_some, ProcedureTable.get?_modify]
          by_cases hij : i = j
          · rw [if_pos hij, if_pos (by rw [hij])]
          · rw [if_neg hij, if_neg (fun heq => hij (congrArg ProcRef.index heq))]
      · rw [if_neg hc, if_neg (fun heq => hc (Option.some.inj (congrArg ProcRef.classScope heq)))]

/-- Changing a procedure but for its body leaves the tables in order. -/
theorem Coherent.modifyProcedure {s : Session} (h : s.Coherent) (r : ProcRef)
    {g : Procedure → Procedure} (hg : ∀ p, (g p).block = p.block) :
    (s.modifyProcedure r g).Coherent := by
  have hheader : (s.modifyProcedure r g).header? = s.header? := by
    unfold Session.modifyProcedure
    split <;> rfl
  refine ⟨?_, ?_, ?_, ?_, ?_⟩
  · rw [hheader]
    exact h.entries
  · intro cls c hc
    unfold Session.modifyProcedure at hc
    split at hc
    · exact h.members cls c hc
    · rw [ClassTable.get?_modify] at hc
      split at hc
      · obtain ⟨k, hk, rfl⟩ := Option.map_eq_some_iff.mp hc
        exact h.members cls k hk
      · exact h.members cls c hc
  · rw [hheader]
    exact h.first
  · rw [hheader]
    exact h.around
  · rw [hheader]
    intro id hd q hs hq
    obtain ⟨p, body, c, hp, hbody, hc⟩ := h.bodies id hd q hs hq
    rw [procedure?_modifyProcedure]
    split
    · exact ⟨g p, body, c, by rw [hp, Option.map_some], (hg p).trans hbody, hc⟩
    · exact ⟨p, body, c, hp, hbody, hc⟩

theorem procedure?_register_of_some {s : Session} {r : ProcRef} {q : Procedure}
    (h : s.procedure? r = some q) (scope : Scope) (p : Procedure) :
    (s.register scope p).procedure? r = some q := by
  obtain ⟨owner, i⟩ := r
  unfold register
  cases ownerClass scope with
  | none =>
    cases owner with
    | none => exact ProcedureTable.get?_append_of_some h p
    | some c => exact h
  | some cls =>
    cases owner with
    | none => exact h
    | some c =>
      rw [procedure?_some] at h ⊢
      dsimp only [ClassTable.appendProcedure]
      rw [ClassTable.get?_modify]
      split
      · cases hk : s.classes.get? c with
        | none => simp [hk] at h
        | some k =>
          rw [hk, Option.bind_some] at h
          exact ProcedureTable.get?_append_of_some h _
      · exact h

/-- The next reference of a scope is free, and a procedure that is registered gets it. -/
theorem procedure?_nextProcedure (s : Session) (scope : Scope) :
    s.procedure? (s.nextProcedure scope) = none := by
  unfold nextProcedure
  cases ownerClass scope with
  | none => exact Array.getElem?_size
  | some cls =>
    rw [procedure?_some]
    cases s.classes.get? cls with
    | none => rfl
    | some c => exact Array.getElem?_size

theorem procedure?_register_next {s : Session} {scope : Scope}
    (hcls : ∀ cls, ownerClass scope = some cls → (s.classes.get? cls).isSome) (p : Procedure) :
    ((s.register scope p).procedure? (s.nextProcedure scope)).isSome := by
  unfold register nextProcedure
  cases howner : ownerClass scope with
  | none =>
    have hget := ProcedureTable.get?_append_size s.procedures p
    exact Option.isSome_iff_exists.mpr ⟨_, hget⟩
  | some cls =>
    obtain ⟨c, hc⟩ := Option.isSome_iff_exists.mp (hcls cls howner)
    have hget := ProcedureTable.get?_append_size c.procedures { p with classScope := some cls }
    rw [procedure?_some]
    dsimp only [ClassTable.appendProcedure]
    rw [ClassTable.get?_modify, if_pos rfl, hc, Option.map_some, Option.bind_some]
    exact Option.isSome_iff_exists.mpr ⟨_, hget⟩

theorem members_register {s : Session}
    (h : ∀ cls c, s.classes.get? cls = some c → c.symbols.Numbered) (scope : Scope) (p : Procedure) :
    ∀ cls c, (s.register scope p).classes.get? cls = some c → c.symbols.Numbered := by
  intro cls c hc
  unfold register at hc
  split at hc
  · dsimp only [ClassTable.appendProcedure] at hc
    rw [ClassTable.get?_modify] at hc
    split at hc
    · obtain ⟨k, hk, rfl⟩ := Option.map_eq_some_iff.mp hc
      exact h cls k hk
    · exact h cls c hc
  · exact h cls c hc

theorem Coherent.register {s : Session} (h : s.Coherent) (scope : Scope) (p : Procedure) :
    (s.register scope p).Coherent := by
  have hheader : (s.register scope p).header? = s.header? := by
    funext id
    unfold header? block?
    rw [blocks_register]
  refine ⟨?_, members_register h.members scope p, ?_, ?_, ?_⟩
  · rw [hheader]
    exact h.entries
  · rw [hheader]
    exact h.first
  · rw [hheader]
    exact h.around
  · rw [hheader]
    intro id hd r hs hr
    obtain ⟨q, body, c, hq, hbody⟩ := h.bodies id hd r hs hr
    exact ⟨q, body, c, procedure?_register_of_some hq scope p, hbody⟩

/-! ## New blocks -/

theorem lt_of_header? {s : Session} {id : Nat} {h : Header} (hs : s.header? id = some h) :
    id < s.blocks.size := by
  obtain ⟨b, hb, _⟩ := header?_eq_some.mp hs
  exact (Array.getElem?_eq_some_iff.mp hb).1

/-- A session with one more block, below one that may surround it. -/
theorem Coherent.withBlock {s t : Session} (h : s.Coherent) {p : Nat} {hp : Header}
    {proc : Option ProcRef} (hparent : s.header? p = some hp)
    (hsur : CanSurround hp.procedure proc)
    (hnew : ∀ id, t.header? id =
      if id = s.blocks.size then some ⟨some p, proc, {}⟩ else s.header? id)
    (hmembers : ∀ cls c, t.classes.get? cls = some c → c.symbols.Numbered)
    (hprocs : ∀ r q, s.procedure? r = some q → ∃ q', t.procedure? r = some q' ∧ q'.block = q.block)
    (hproc : ∀ r, proc = some r → ∃ q body c, t.procedure? r = some q ∧ q.block = some body ∧
      t.header? body = some c ∧ c.procedure = some r) :
    t.Coherent := by
  have hold {id : Nat} {hd : Header} (hs : s.header? id = some hd) : t.header? id = some hd := by
    have := lt_of_header? hs
    rw [hnew, if_neg (by omega), hs]
  refine ⟨?_, hmembers, ?_, ?_, ?_⟩
  · intro id hd ht
    rw [hnew] at ht
    split at ht
    · cases ht
      exact Header.filed_empty _ _
    · exact h.entries id hd ht
  · intro hd ht
    have := lt_of_header? hparent
    rw [hnew, if_neg (by omega)] at ht
    exact h.first hd ht
  · intro id hd q ht hq
    rw [hnew] at ht
    split at ht
    · cases ht
      cases hq
      exact ⟨hp, hold hparent, hsur⟩
    · obtain ⟨c, hc, hsur'⟩ := h.around id hd q ht hq
      exact ⟨c, hold hc, hsur'⟩
  · intro id hd r ht hr
    rw [hnew] at ht
    split at ht
    · cases ht
      exact hproc r hr
    · obtain ⟨q, body, c, hq, hbody, hc, hcr⟩ := h.bodies id hd r ht hr
      obtain ⟨q', hq', hblock⟩ := hprocs r q hq
      exact ⟨q', body, c, hq', hblock.trans hbody, hold hc, hcr⟩

/-- A session with one more block for a unit, which stands alone or below the first block. -/
theorem Coherent.withUnit {s t : Session} (h : s.Coherent) {parent : Option Nat}
    (hparent : parent = none ∨ parent = some 0)
    (hnew : ∀ id, t.header? id =
      if id = s.blocks.size then some ⟨parent, none, {}⟩ else s.header? id)
    (hc : t.classes = s.classes) (hp : t.procedures = s.procedures) : t.Coherent := by
  have hold {id : Nat} {hd : Header} (hs : s.header? id = some hd) : t.header? id = some hd := by
    have := lt_of_header? hs
    rw [hnew, if_neg (by omega), hs]
  have hfirst (hd : Header) (ht : t.header? 0 = some hd) : hd.procedure = none := by
    rw [hnew] at ht
    split at ht
    · cases ht
      rfl
    · exact h.first hd ht
  refine ⟨?_, ?_, hfirst, ?_, ?_⟩
  · intro id hd ht
    rw [hnew] at ht
    split at ht
    · cases ht
      exact Header.filed_empty _ _
    · exact h.entries id hd ht
  · rw [hc]
    exact h.members
  · intro id hd q ht hq
    rw [hnew] at ht
    split at ht
    · cases ht
      obtain rfl | rfl := hparent
      · cases hq
      · cases hq
        have hzero : (t.header? 0).isSome := by
          rw [hnew]
          split
          · rfl
          · next hne =>
            rw [header?_isSome]
            exact Option.isSome_iff_exists.mpr ⟨_, Array.getElem?_eq_getElem (by omega)⟩
        obtain ⟨c, hc⟩ := Option.isSome_iff_exists.mp hzero
        exact ⟨c, hc, .inl (hfirst c hc)⟩
    · obtain ⟨c, hc, hsur⟩ := h.around id hd q ht hq
      exact ⟨c, hold hc, hsur⟩
  · intro id hd r ht hr
    rw [hnew] at ht
    split at ht
    · cases ht
      cases hr
    · obtain ⟨q, body, c, hq, hbody, hc', hcr⟩ := h.bodies id hd r ht hr
      rw [procedure?_congr hc hp]
      exact ⟨q, body, c, hq, hbody, hold hc', hcr⟩

/-- A block that is added and given a procedure. -/
theorem header?_addBlock_procedure (s : Session) (kind : BlockKind) (dialect : Dialect)
    (parent : Option Nat) (proc : Option ProcRef) (id : Nat) :
    ((s.addBlock kind dialect parent).modifyBlock s.blocks.size fun b =>
        { b with procedure := proc }).header? id =
      if id = s.blocks.size then some ⟨parent, proc, {}⟩ else s.header? id := by
  rw [header?_modifyBlock_eq (k := fun h => { h with procedure := proc }) (fun _ => rfl),
    header?_addBlock]
  by_cases hid : id = s.blocks.size
  · rw [if_pos hid.symm, if_pos hid, if_pos hid, Option.map_some]
  · rw [if_neg (fun heq => hid heq.symm), if_neg hid, if_neg hid]

theorem header?_openBlock (s : Session) (f : Frame) (dialect : Dialect) (id : Nat) :
    (s.openBlock f dialect).header? id =
      if id = s.blocks.size then some ⟨some f.block, f.scope.procedure, {}⟩ else s.header? id :=
  header?_addBlock_procedure s .language dialect (some f.block) f.scope.procedure id

theorem header?_openProcedure (s : Session) (f : Frame) (p : Procedure) (message : String)
    (id : Nat) :
    (s.openProcedure f p message).header? id =
      if id = s.blocks.size then some ⟨some f.block, some (s.nextProcedure f.scope), {}⟩
      else s.header? id := by
  have hblocks : (s.register f.scope p).blocks = s.blocks := blocks_register s f.scope p
  have hheader : (s.register f.scope p).header? = s.header? := by
    funext other
    unfold header? block?
    rw [hblocks]
  have hnew := header?_addBlock_procedure (s.register f.scope p) .function f.dialect (some f.block)
    (some (s.nextProcedure f.scope)) id
  rw [hheader, hblocks] at hnew
  rw [← hnew]
  unfold header? block?
  rw [blocks_openProcedure]

theorem coherent_openBlock {s : Session} {f : Frame} (h : s.Coherent) (hf : f.Placed s)
    (dialect : Dialect) : (s.openBlock f dialect).Coherent := by
  obtain ⟨hp, hparent, hproc⟩ := hf.block
  have hkeeps := keeps_of_new (header?_openBlock s f dialect)
  have hclasses : (s.openBlock f dialect).classes = s.classes := rfl
  have hprocs : (s.openBlock f dialect).procedure? = s.procedure? := procedure?_congr rfl rfl
  refine h.withBlock hparent (.inl hproc) (header?_openBlock s f dialect) ?_ ?_ ?_
  · rw [hclasses]
    exact h.members
  · intro r q hq
    rw [hprocs]
    exact ⟨q, hq, rfl⟩
  · intro r hr
    obtain ⟨q, body, c, hq, hbody, hc, hcr⟩ := h.bodies f.block hp r hparent (hproc.trans hr)
    obtain ⟨c', hc', hcproc⟩ := hkeeps body c hc
    rw [hprocs]
    exact ⟨q, body, c', hq, hbody, hc', hcproc.trans hcr⟩

theorem classScope_nextProcedure (s : Session) (scope : Scope) :
    (s.nextProcedure scope).classScope = ownerClass scope := by
  unfold nextProcedure
  cases ownerClass scope <;> rfl

/-- A procedure declared in another one is a function. -/
theorem canSurround_next (s : Session) (scope : Scope) :
    CanSurround scope.procedure (some (s.nextProcedure scope)) := by
  cases hproc : scope.procedure with
  | none => exact .inr (.inl rfl)
  | some r =>
    refine .inr (.inr ⟨_, rfl, ?_⟩)
    rw [classScope_nextProcedure, ownerClass, hproc]
    rfl

theorem tables_openProcedure (s : Session) (f : Frame) (p : Procedure) (message : String) :
    let t := (s.register f.scope p).modifyProcedure (s.nextProcedure f.scope) fun p =>
      { p with block := some s.blocks.size }
    (s.openProcedure f p message).classes = t.classes ∧
      (s.openProcedure f p message).procedures = t.procedures := by
  have hmodify {u v : Session} (hclasses : v.classes = u.classes) (hprocedures : v.procedures = u.procedures)
      (r : ProcRef) (g : Procedure → Procedure) : (v.modifyProcedure r g).classes = (u.modifyProcedure r g).classes ∧
        (v.modifyProcedure r g).procedures = (u.modifyProcedure r g).procedures := by
    unfold Session.modifyProcedure
    split
    · exact ⟨hclasses, congrArg (ProcedureTable.modify · r.index g) hprocedures⟩
    · exact ⟨congrArg (ClassTable.modify · _ _) hclasses, hprocedures⟩
  exact hmodify (u := s.register f.scope p)
    (v := ((s.register f.scope p).addBlock .function f.dialect (some f.block)).modifyBlock s.blocks.size _) rfl rfl _ _

theorem coherent_openProcedure {s : Session} {f : Frame} (h : s.Coherent) (hf : f.Placed s)
    (hcls : ∀ cls, ownerClass f.scope = some cls → (s.classes.get? cls).isSome) (p : Procedure)
    (message : String) : (s.openProcedure f p message).Coherent := by
  obtain ⟨hp, hparent, hproc⟩ := hf.block
  obtain ⟨hclasses, hprocedures⟩ := tables_openProcedure s f p message
  have hprocs := procedure?_congr hclasses hprocedures
  have hsur := canSurround_next s f.scope
  rw [← hproc] at hsur
  refine h.withBlock hparent hsur (header?_openProcedure s f p message) ?_ ?_ ?_
  · rw [hclasses]
    intro cls c hc
    unfold Session.modifyProcedure at hc
    split at hc
    · exact members_register h.members f.scope p cls c hc
    · rw [ClassTable.get?_modify] at hc
      split at hc
      · obtain ⟨k, hk, rfl⟩ := Option.map_eq_some_iff.mp hc
        exact members_register h.members f.scope p cls k hk
      · exact members_register h.members f.scope p cls c hc
  · intro r q hq
    have hne : s.nextProcedure f.scope ≠ r := by
      rintro rfl
      rw [procedure?_nextProcedure] at hq
      cases hq
    rw [hprocs, procedure?_modifyProcedure, if_neg hne]
    exact ⟨q, procedure?_register_of_some hq f.scope p, rfl⟩
  · intro r hr
    cases hr
    obtain ⟨q, hq⟩ := Option.isSome_iff_exists.mp (procedure?_register_next hcls p)
    refine ⟨{ q with block := some s.blocks.size }, s.blocks.size,
      ⟨some f.block, some (s.nextProcedure f.scope), {}⟩, ?_, rfl, ?_, rfl⟩
    · rw [hprocs, procedure?_modifyProcedure, if_pos rfl, hq, Option.map_some]
    · rw [header?_openProcedure, if_pos rfl]

/-! ## New classes -/

theorem get?_append?_cases {t u : ClassTable} {c d : Class} {i : Nat} (h : t.append? c = some u)
    (hd : u.get? i = some d) : t.get? i = some d ∨ d = c := by
  rw [ClassTable.get?_append? h] at hd
  split at hd
  · exact .inr (Option.some.inj hd).symm
  · exact .inl hd

theorem get?_append?_of_some {t u : ClassTable} {c d : Class} {i : Nat} (h : t.append? c = some u)
    (hd : t.get? i = some d) : u.get? i = some d := by
  rw [ClassTable.get?_append? h, if_neg]
  · exact hd
  · rintro rfl
    rw [ClassTable.get?_size] at hd
    cases hd

theorem Coherent.appendClass {s : Session} (h : s.Coherent) {c : Class} {classes : ClassTable}
    (hc : c.symbols.Numbered) (happ : s.classes.append? c = some classes) :
    Coherent { s with classes } := by
  refine ⟨h.entries, ?_, h.first, h.around, ?_⟩
  · intro i d hd
    rcases get?_append?_cases happ hd with hd | rfl
    · exact h.members i d hd
    · exact hc
  · intro id hd r hs hr
    obtain ⟨p, body, k, hp, hbody, hk⟩ := h.bodies id hd r hs hr
    refine ⟨p, body, k, ?_, hbody, hk⟩
    obtain ⟨owner, i⟩ := r
    cases owner with
    | none => exact hp
    | some cls =>
      rw [procedure?_some] at hp ⊢
      obtain ⟨d, hd', hp⟩ := Option.bind_eq_some_iff.mp hp
      rw [get?_append?_of_some happ hd']
      exact hp

end Session

end Diglot
