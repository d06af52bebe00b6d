import Mathlib.Data.List.Find
import Diglot.Proofs.Paths.Declared

/-! # Made-up variables beside the others

While a chain is split, variables are made up whose names no source has. Lookups of other names do not see
them, and neither do lookups of members.

* `Session.Beside s t`: what `t` has beside `s` are made-up variables.
* `Sight.resolve_beside`, `Sight.segmentTarget_beside` and `Sight.callTarget_beside`: names stand for the
  same in both.
-/

set_option autoImplicit false

namespace Diglot

open Lowering

/-! ## Tables -/

/-- The symbol is a variable that the compiler made up. -/
structure Symbol.IsMadeUp (x : Symbol) : Prop where
  temporary : x.isTemporary = true
  notStatic : x.isStatic = false

/-- A name that a source can have. -/
def IsPlainName (name : String) : Prop := Text.isTemporaryName name = false

theorem Symbol.IsMadeUp.name_ne {x : Symbol} (h : x.IsMadeUp) {name : String} (hname : IsPlainName name) :
    name ≠ x.name := by
  rintro rfl
  have hmadeUp : Text.isTemporaryName x.name = true := h.temporary
  rw [hname] at hmadeUp
  cases hmadeUp

namespace SymbolTable

variable {t u : SymbolTable} {x : Symbol} {name : String} {p : Symbol → Bool} {i : Nat}

/-- The other table has made-up variables behind the symbols of the first. -/
def Beside (t u : SymbolTable) : Prop :=
  ∃ xs : List Symbol, (∀ x ∈ xs, x.IsMadeUp) ∧ u = xs.foldl append t

theorem Beside.refl (t : SymbolTable) : t.Beside t := ⟨[], by simp, rfl⟩

theorem Beside.append (h : t.Beside u) (hx : x.IsMadeUp) : t.Beside (u.append x) := by
  obtain ⟨xs, hxs, rfl⟩ := h
  refine ⟨xs ++ [x], fun y hy => ?_, by simp⟩
  obtain hy | hy := List.mem_append.mp hy
  · exact hxs y hy
  · rwa [List.mem_singleton.mp hy]

/-- What the table shows is shown of the other as well, if one more made-up variable does not change it. -/
theorem Beside.eq_of_append {α : Type} (h : t.Beside u) (ht : t.Indexed) {e : SymbolTable → α}
    (happend : ∀ (t : SymbolTable) (x : Symbol), t.Indexed → x.IsMadeUp →
      e (t.append x) = e t) : e u = e t := by
  obtain ⟨xs, hxs, rfl⟩ := h
  induction xs generalizing t with
  | nil => rfl
  | cons x rest ih =>
    have hx := hxs x (List.mem_cons_self ..)
    rw [List.foldl_cons, ih (ht.append x) fun y hy => hxs y (List.mem_cons_of_mem x hy), happend t x ht hx]

theorem Beside.indexed (h : t.Beside u) (ht : t.Indexed) : u.Indexed := by
  obtain ⟨xs, -, rfl⟩ := h
  induction xs generalizing t with
  | nil => exact ht
  | cons x rest ih => exact ih (ht.append x)

theorem findNamed?_append_of_ne (ht : t.Indexed) (h : name ≠ x.name) :
    (t.append x).findNamed? name p = t.findNamed? name p := by
  rw [findNamed?_eq_find?, findNamed?_eq_find?, indicesOf_append, if_neg h]
  refine List.find?_congr fun i hi => ?_
  rw [get?_append_of_lt x (ht.lt_size hi)]

theorem Beside.findNamed?_plain (h : t.Beside u) (ht : t.Indexed) (hname : IsPlainName name) :
    u.findNamed? name p = t.findNamed? name p :=
  h.eq_of_append (e := fun t => t.findNamed? name p) ht fun _ _ ht hx => findNamed?_append_of_ne ht (hx.name_ne hname)

theorem Beside.findNamed?_static (h : t.Beside u) (ht : t.Indexed)
    (hp : ∀ x : Symbol, x.isStatic = false → p x = false) : u.findNamed? name p = t.findNamed? name p :=
  h.eq_of_append (e := fun t => t.findNamed? name p) ht
    fun _ _ _ hx => findNamed?_append_of_not (hp _ hx.notStatic)

theorem Beside.get? (h : t.Beside u) (hx : t.get? i = some x) : u.get? i = some x := by
  obtain ⟨xs, -, rfl⟩ := h
  induction xs generalizing t with
  | nil => exact hx
  | cons y rest ih => exact ih (get?_append_of_some hx y)

/-- Suggestions leave made-up variables out. -/
theorem Beside.filter_symbols (h : t.Beside u) (ht : t.Indexed) :
    u.symbols.toList.filter (fun x => !x.isMember && !x.isTemporary) =
      t.symbols.toList.filter (fun x => !x.isMember && !x.isTemporary) := by
  refine h.eq_of_append ht (e := fun t => t.symbols.toList.filter _) fun t x _ hx => ?_
  have htemporary : (x.name.toList.head? == some '%') = true := hx.temporary
  simp [SymbolTable.append, Symbol.isTemporary, htemporary]

end SymbolTable

/-! ## Sessions -/

theorem Session.SameNames.symm {s t : Session} (h : s.SameNames t) : t.SameNames s :=
  ⟨h.classes.symm, h.procedures.symm, h.isWatching.symm, h.isParsingModule.symm, h.size.symm, h.headers.symm⟩

structure Header.Beside (h k : Header) : Prop where
  parent : k.parent = h.parent
  symbols : h.symbols.Beside k.symbols

theorem Header.Beside.refl (h : Header) : h.Beside h := ⟨rfl, .refl _⟩

/-- What `t` has beside `s` are made-up variables. -/
structure Session.Beside (s t : Session) : Prop where
  classes : t.classes = s.classes
  procedures : t.procedures = s.procedures
  isWatching : t.isWatching = s.isWatching
  isParsingModule : t.isParsingModule = s.isParsingModule
  size : t.blocks.size = s.blocks.size
  indexed : s.Indexed
  missing : ∀ id, s.header? id = none → t.header? id = none
  headers : ∀ id h, s.header? id = some h → ∃ k, t.header? id = some k ∧ h.Beside k

namespace Session

variable {s s' t t' : Session}

theorem Beside.refl (h : s.Indexed) : s.Beside s :=
  ⟨rfl, rfl, rfl, rfl, rfl, h, fun _ h => h, fun _ h hs => ⟨h, hs, .refl h⟩⟩

theorem Beside.congr (h : s.Beside t) (hs : s.SameNames s') (ht : t.SameNames t') : s'.Beside t' where
  classes := ht.classes.trans (h.classes.trans hs.classes.symm)
  procedures := ht.procedures.trans (h.procedures.trans hs.procedures.symm)
  isWatching := ht.isWatching.trans (h.isWatching.trans hs.isWatching.symm)
  isParsingModule := ht.isParsingModule.trans (h.isParsingModule.trans hs.isParsingModule.symm)
  size := ht.size.trans (h.size.trans hs.size.symm)
  indexed id hd hid := h.indexed id hd (hs.headers ▸ hid)
  missing id hid := by
    rw [ht.headers]
    exact h.missing id (hs.headers ▸ hid)
  headers id hd hid := by
    rw [ht.headers]
    exact h.headers id hd (hs.headers ▸ hid)

/-- A made-up variable is declared in one of the sessions only. -/
theorem Beside.enterLocal (h : s.Beside t) (block : Nat) {x : Symbol} (hx : x.IsMadeUp) :
    s.Beside (t.enterLocal block x) := by
  have hheader (id : Nat) : (t.enterLocal block x).header? id =
      if block = id then (t.header? id).map fun h => { h with symbols := h.symbols.append x }
      else t.header? id :=
    header?_modifyBlock_eq (k := fun h => { h with symbols := h.symbols.append x }) (fun _ => rfl) t block id
  refine { h with size := ?_, missing := fun id hid => ?_, headers := fun id hd hid => ?_ }
  · exact (size_blocks_modifyBlock ..).trans h.size
  · rw [hheader, h.missing id hid]
    split <;> rfl
  · obtain ⟨k, hk, hbeside⟩ := h.headers id hd hid
    rw [hheader, hk]
    split
    · exact ⟨_, rfl, hbeside.parent, hbeside.symbols.append hx⟩
    · exact ⟨k, rfl, hbeside⟩

theorem Beside.indexed_right (h : s.Beside t) : t.Indexed := by
  intro id k hk
  cases hs : s.header? id with
  | none =>
    rw [h.missing id hs] at hk
    cases hk
  | some hd =>
    obtain ⟨k', hk', hbeside⟩ := h.headers id hd hs
    cases hk.symm.trans hk'
    exact hbeside.symbols.indexed (h.indexed id hd hs)

theorem Beside.header_parent (h : s.Beside t) (id : Nat) :
    (t.header? id).map Header.parent = (s.header? id).map Header.parent := by
  cases hs : s.header? id with
  | none => rw [h.missing id hs]
  | some hd =>
    obtain ⟨k, hk, hbeside⟩ := h.headers id hd hs
    rw [hk]
    exact congrArg some hbeside.parent

theorem Beside.enclosing? (h : s.Beside t) (id : Nat) : t.enclosing? id = s.enclosing? id :=
  enclosing?_congr h.size h.header_parent id

theorem Beside.block?_isSome (h : s.Beside t) (id : Nat) : (t.block? id).isSome = (s.block? id).isSome := by
  rw [← header?_isSome, ← header?_isSome]
  have := congrArg Option.isSome (h.header_parent id)
  rwa [Option.isSome_map, Option.isSome_map] at this

theorem Beside.symbol? (h : s.Beside t) {r : SymbolRef} {x : Symbol} (hx : s.symbol? r = some x) :
    t.symbol? r = some x := by
  obtain ⟨owner, i⟩ := r
  cases owner with
  | cls id =>
    unfold Session.symbol? at hx ⊢
    rwa [h.classes]
  | block id =>
    rw [symbol?_block] at hx ⊢
    obtain ⟨hd, hs, hx⟩ := Option.bind_eq_some_iff.mp hx
    obtain ⟨k, hk, hbeside⟩ := h.headers id hd hs
    rw [hk]
    exact hbeside.symbols.get? hx

theorem Beside.procedure? (h : s.Beside t) (r : ProcRef) : t.procedure? r = s.procedure? r := by
  unfold Session.procedure?
  rw [h.classes, h.procedures]

end Session

namespace Lowering

/-! ## Cursors -/

/-- The cursors lead to the next segment alike. -/
structure Cursor.Similar (c c' : Cursor) : Prop where
  type : c'.type = c.type
  anchor : c'.anchor = c.anchor
  depth : c.depth = 0 ↔ c'.depth = 0
  isLate : c'.isLate = c.isLate
  lateEntry : c'.lateEntry = c.lateEntry
  isStopped : c'.isStopped = c.isStopped

namespace Cursor.Similar

variable {c c' : Cursor}

theorem refl (c : Cursor) : c.Similar c := ⟨rfl, rfl, .rfl, rfl, rfl, rfl⟩

theorem receiver? (h : c.Similar c') : c'.receiver? = c.receiver? := by
  unfold Cursor.receiver?
  rw [h.anchor, h.type]

theorem onArray (h : c.Similar c') : c'.onArray = c.onArray := by
  unfold Cursor.onArray
  rw [h.anchor, h.type]

end Cursor.Similar

/-- The class may anchor a split chain: no variable hides its name. -/
def Sight.MayAnchor (v : Sight) (anchor : Option Nat) : Prop :=
  ∀ name cls, anchor = some cls → v.session.classes.indexOf? name = some cls → v.resolve name = .unbound

end Lowering

/-! ## Lookups -/

namespace Lowering.Sight

/-- The name is looked up alike. -/
structure AgreeOn (name : String) (v w : Sight) : Prop where
  blocks : w.blocks = v.blocks
  block : w.frame.block = v.frame.block
  scope : w.frame.scope = v.frame.scope
  isWatching : w.session.isWatching = v.session.isWatching
  isVisible : w.isVisible = v.isVisible
  named : ∀ id p, (w.symbolsOf id).findNamed? name p = (v.symbolsOf id).findNamed? name p
  inClass : ∀ cls, w.inClass cls name = v.inClass cls name

namespace AgreeOn

variable {name : String} {v w : Sight} (h : AgreeOn name v w)
include h

theorem inBlock? (id : Nat) : w.inBlock? name id = v.inBlock? name id := by
  unfold Sight.inBlock?
  rw [h.isVisible, h.named]

theorem inProcedure? : w.inProcedure? name = v.inProcedure? name := by
  unfold Sight.inProcedure? SymbolTable.indexInFunction?
  simp only [h.scope, h.named]

theorem inBlocks : w.inBlocks name = v.inBlocks name := by
  unfold Sight.inBlocks
  rw [h.inProcedure?, h.blocks, funext h.inBlock?]

theorem inScope : w.inScope name = v.inScope name := by
  unfold Sight.inScope
  simp only [h.scope, h.inBlocks, h.inClass]

/-- What is looked up alike stands for the same. -/
theorem resolve : w.resolve name = v.resolve name := by
  have hnested : w.isNested = v.isNested := by
    unfold isNested
    rw [h.scope, h.block]
  unfold Sight.resolve
  rw [hnested, h.block, h.inBlock?, h.scope, h.isWatching, h.inProcedure?, h.inScope]

end AgreeOn

section
variable {s : Session} {f : Frame} {hd : Header} {name : String}
  (hblock : s.header? f.block = some hd) {x : Symbol}
include hblock

theorem findNamed?_entered_of_ne (hindexed : s.Indexed) (hne : name ≠ x.name) (id : Nat) (p : Symbol → Bool) :
    ((sightFrom f (s.enterLocal f.block x)).symbolsOf id).findNamed? name p =
      ((sightFrom f s).symbolsOf id).findNamed? name p := by
  rw [symbolsOf_entered hblock]
  split
  · next heq =>
    rw [SymbolTable.findNamed?_append_of_ne (hindexed _ _ hblock) hne, ← heq, symbolsOf_own hblock]
  · rfl

/-- A variable that is entered changes nothing about other names. -/
theorem agreeOn_entered (hindexed : s.Indexed) (hne : name ≠ x.name) :
    AgreeOn name (sightFrom f s) (sightFrom f (s.enterLocal f.block x)) where
  blocks := blocks_entered x
  block := rfl
  scope := rfl
  isWatching := rfl
  isVisible := rfl
  named := findNamed?_entered_of_ne hblock hindexed hne
  inClass := inClass_of_entries x fun owner => by
    unfold staticEntry?
    rw [findNamed?_entered_of_ne hblock hindexed hne]

omit hblock in
/-- A name that cannot be used is that of a member or of nothing. -/
theorem resolve_eq_of_not_found (name : String) {v : Sight} (hvoid : v.frame.scope.classScope ≠ some Primitive.void.uid)
    (hr : ∀ r, v.resolve name ≠ .found r) :
    v.resolve name =
      match v.frame.scope.classScope with
      | none => .unbound
      | some cls => v.inClass cls name := by
  have hblocks (hr : ∀ r, v.inBlocks name ≠ .found r) : v.inBlocks name = .unbound := by
    cases hb : v.inBlocks name with
    | found r => exact absurd hb (hr r)
    | inaccessible r => exact absurd hb inBlocks_ne_inaccessible
    | unbound => rfl
  unfold resolve at hr ⊢
  split at hr
  · exact absurd rfl (hr _)
  · rw [if_neg hvoid] at hr
    rw [if_neg hvoid]
    split at hr
    · exact absurd rfl (hr _)
    · unfold inScope at hr ⊢
      cases hcls : v.frame.scope.classScope with
      | none =>
        rw [hcls] at hr
        exact hblocks hr
      | some cls =>
        rw [hcls] at hr
        dsimp only at hr ⊢
        cases hclass : v.inClass cls name with
        | found r => rfl
        | inaccessible r => rfl
        | unbound =>
          rw [hclass] at hr
          exact hblocks hr

/-- Where a name was unbound, it stands for the visible variable that was entered. -/
theorem resolve_entered_found (hstatic : x.isStatic = false) (hfree : (sightFrom f s).resolve x.name = .unbound)
    (hsees : (sightFrom f s).isVisible { x with position := hd.symbols.size } = true)
    (hvoid : f.scope.classScope ≠ some Primitive.void.uid) (henclosing : (s.enclosing? f.block).isSome) :
    (sightFrom f (s.enterLocal f.block x)).resolve x.name =
      .found ⟨.block f.block, hd.symbols.size⟩ := by
  cases hr : (sightFrom f (s.enterLocal f.block x)).resolve x.name with
  | found r => rw [resolve_entered hblock x hstatic (fun r h => by simp [hfree] at h) hr]
  | unbound => exact absurd hr (resolve_entered_ne hblock x hsees hvoid henclosing)
  | inaccessible r =>
    -- Only a member can be inaccessible, and the members are the same as before.
    have hbefore := resolve_eq_of_not_found x.name (v := sightFrom f s) hvoid fun r h => by
      rw [hfree] at h
      cases h
    have hafter := resolve_eq_of_not_found x.name (v := sightFrom f (s.enterLocal f.block x)) hvoid fun r' h => by
      rw [hr] at h
      cases h
    have hsame : (sightFrom f (s.enterLocal f.block x)).resolve x.name = (sightFrom f s).resolve x.name := by
      rw [hbefore, hafter]
      change (match f.scope.classScope with | none => _ | some cls => _) =
        (match f.scope.classScope with | none => _ | some cls => _)
      simp only [inClass_entered hblock x hstatic]
    rw [hsame, hfree] at hr
    cases hr

end

end Lowering.Sight

namespace Lowering.Sight

variable {s t : Session} (h : s.Beside t) (f : Frame) (anchor : Option Nat) {name : String}
include h

theorem blocks_beside : (sightFrom { f with anchor } t).blocks = (sightFrom f s).blocks := by
  unfold sightFrom
  dsimp only
  rw [h.enclosing?]

theorem symbolsOf_beside (id : Nat) :
    ((sightFrom f s).symbolsOf id).Beside ((sightFrom { f with anchor } t).symbolsOf id) ∧
      ((sightFrom f s).symbolsOf id).Indexed := by
  rw [symbolsOf_eq, symbolsOf_eq]
  change ((((s.header? id).map Header.symbols).getD {}).Beside
    (((t.header? id).map Header.symbols).getD {})) ∧ (((s.header? id).map Header.symbols).getD {}).Indexed
  cases hs : s.header? id with
  | none =>
    rw [h.missing id hs]
    exact ⟨.refl _, SymbolTable.indexed_empty⟩
  | some hd =>
    obtain ⟨k, hk, hbeside⟩ := h.headers id hd hs
    rw [hk]
    exact ⟨hbeside.symbols, h.indexed id hd hs⟩

theorem isVisible_beside : (sightFrom { f with anchor } t).isVisible = (sightFrom f s).isVisible := by
  funext x
  unfold isVisible
  change (!x.isMember && !(t.isParsingModule && _) && _) = (!x.isMember && !(s.isParsingModule && _) && _)
  rw [h.isParsingModule]
  rfl

theorem inClass_beside (cls : Nat) (name : String) :
    (sightFrom { f with anchor } t).inClass cls name = (sightFrom f s).inClass cls name := by
  have hentry (owner : Nat) : staticEntry? (sightFrom { f with anchor } t) owner name =
      staticEntry? (sightFrom f s) owner name := by
    obtain ⟨hbeside, hindexed⟩ := symbolsOf_beside h f anchor 0
    unfold staticEntry?
    rw [hbeside.findNamed?_static hindexed fun x hx => by simp [hx]]
  have hclasses : (sightFrom { f with anchor } t).session.classes = (sightFrom f s).session.classes :=
    h.classes
  have hmember (m : MemberRef) : (sightFrom { f with anchor } t).isStaticMember m =
      (sightFrom f s).isStaticMember m := by
    unfold isStaticMember
    rw [hclasses]
  unfold inClass
  rw [hclasses]
  simp only [hentry, hmember]
  rfl

/-- A name that a source can have is looked up alike, whatever is made up beside it. -/
theorem agreeOn_beside (hname : IsPlainName name) :
    AgreeOn name (sightFrom f s) (sightFrom { f with anchor } t) where
  blocks := blocks_beside h f anchor
  block := rfl
  scope := rfl
  isWatching := h.isWatching
  isVisible := isVisible_beside h f anchor
  named id p := by
    obtain ⟨hbeside, hindexed⟩ := symbolsOf_beside h f anchor id
    exact hbeside.findNamed?_plain hindexed hname
  inClass cls := inClass_beside h f anchor cls name

/-- A name that a source can have stands for the same, whatever is made up beside it. -/
theorem resolve_beside (hname : IsPlainName name) :
    (sightFrom { f with anchor } t).resolve name = (sightFrom f s).resolve name :=
  (agreeOn_beside h f anchor hname).resolve

theorem rootTarget_beside (hnone : f.anchor = none) (hanchor : (sightFrom f s).MayAnchor anchor)
    (hname : IsPlainName name) :
    (sightFrom { f with anchor } t).rootTarget name = (sightFrom f s).rootTarget name := by
  have hclasses : (sightFrom { f with anchor } t).session.classes = (sightFrom f s).session.classes :=
    h.classes
  have hframe : (sightFrom f s).frame.anchor = none := hnone
  unfold rootTarget
  rw [resolve_beside h f anchor hname, hclasses, hframe]
  change (if anchor.isSome && (sightFrom f s).session.classes.indexOf? name == anchor then _ else _) = _
  cases anchor with
  | none => rfl
  | some cls =>
    by_cases hcls : (sightFrom f s).session.classes.indexOf? name = some cls
    · simp [hcls, hanchor name cls rfl hcls]
    · simp [hcls]

theorem segmentTarget_beside (hnone : f.anchor = none) (hanchor : (sightFrom f s).MayAnchor anchor)
    {c c' : Cursor} (hc : c.Similar c') (hname : c.depth = 0 → IsPlainName name) :
    (sightFrom { f with anchor } t).segmentTarget name c' = (sightFrom f s).segmentTarget name c := by
  unfold segmentTarget
  by_cases hdepth : c.depth = 0
  · rw [if_pos hdepth, if_pos (hc.depth.mp hdepth)]
    exact rootTarget_beside h f anchor hnone hanchor (hname hdepth)
  · rw [if_neg hdepth, if_neg fun h => hdepth (hc.depth.mpr h)]
    have hclass : (sightFrom { f with anchor } t).inClass = (sightFrom f s).inClass := by
      funext cls name
      exact inClass_beside h f anchor cls name
    unfold memberTarget
    rw [hclass, hc.onArray, hc.receiver?]

theorem callTarget_beside {c c' : Cursor} (hc : c.Similar c') (name : String) (arity : Nat) :
    (sightFrom { f with anchor } t).callTarget name arity c' = (sightFrom f s).callTarget name arity c := by
  have hclasses : (sightFrom { f with anchor } t).session.classes = (sightFrom f s).session.classes :=
    h.classes
  have hprocedures : (sightFrom { f with anchor } t).session.procedures =
      (sightFrom f s).session.procedures := h.procedures
  unfold callTarget
  by_cases hdepth : c.depth = 0
  · rw [if_pos hdepth, if_pos (hc.depth.mp hdepth)]
    unfold rootCall
    rw [hclasses, hprocedures]
    rfl
  · rw [if_neg hdepth, if_neg fun h => hdepth (hc.depth.mpr h)]
    unfold memberCall
    rw [hclasses, hc.onArray, hc.receiver?, hc.anchor]
    rfl

theorem accessedProperty?_beside (hnone : f.anchor = none) (hanchor : (sightFrom f s).MayAnchor anchor)
    {c c' : Cursor} (hc : c.Similar c') (call : Call) :
    accessedProperty? (sightFrom { f with anchor } t) call c' = accessedProperty? (sightFrom f s) call c := by
  unfold accessedProperty?
  cases propertyName? call.name with
  | none => rfl
  | some property =>
    dsimp only
    by_cases hdepth : c.depth = 0
    · simp [hdepth, hc.depth.mp hdepth]
    · have hdepth' : c'.depth ≠ 0 := fun h => hdepth (hc.depth.mpr h)
      rw [segmentTarget_beside h f anchor hnone hanchor hc fun h => absurd h hdepth]
      simp [Nat.pos_of_ne_zero hdepth, Nat.pos_of_ne_zero hdepth']

theorem hiddenMember?_beside {c c' : Cursor} (hc : c.Similar c') (name : String) :
    (sightFrom { f with anchor } t).hiddenMember? name c' = (sightFrom f s).hiddenMember? name c := by
  have hclasses : (sightFrom { f with anchor } t).session.classes = (sightFrom f s).session.classes :=
    h.classes
  have hdepth : (c'.depth = 0) = (c.depth = 0) := propext hc.depth.symm
  unfold hiddenMember?
  simp only [hclasses, hdepth, hc.receiver?]
  rfl

theorem visibleNames_beside : (sightFrom { f with anchor } t).visibleNames = (sightFrom f s).visibleNames := by
  have hclasses : (sightFrom { f with anchor } t).session.classes = (sightFrom f s).session.classes :=
    h.classes
  have hblock (id : Nat) :
      ((sightFrom { f with anchor } t).symbolsOf id).symbols.toList.filter
          (fun x => !x.isMember && !x.isTemporary) =
        ((sightFrom f s).symbolsOf id).symbols.toList.filter fun x => !x.isMember && !x.isTemporary := by
    obtain ⟨hbeside, hindexed⟩ := symbolsOf_beside h f anchor id
    exact hbeside.filter_symbols hindexed
  unfold visibleNames
  simp only [hblock, hclasses, blocks_beside h f anchor]
  rfl

theorem visibleProcedures_beside :
    (sightFrom { f with anchor } t).visibleProcedures = (sightFrom f s).visibleProcedures := by
  have hclasses : (sightFrom { f with anchor } t).session.classes = (sightFrom f s).session.classes :=
    h.classes
  have hprocedures : (sightFrom { f with anchor } t).session.procedures =
      (sightFrom f s).session.procedures := h.procedures
  unfold visibleProcedures
  rw [hclasses, hprocedures]
  rfl

end Lowering.Sight

end Diglot
