import Diglot.Proofs.Law.Basic
import Diglot.Proofs.Paths.Read

/-! # Looking up a name that was declared

A variable is declared where its name stands for nothing that code may use. Behind that the name stands
for the variable (`resolve_entered`), and it is not unbound (`resolve_entered_ne`).
-/

set_option autoImplicit false

namespace Diglot

open Lowering

namespace SymbolTable

variable {t : SymbolTable} {x : Symbol} {name : String} {p : Symbol → Bool} {i : Nat}

theorem get?_append_of_ne (h : i ≠ t.size) : (t.append x).get? i = t.get? i := by
  grind [append, get?, size]

theorem findNamed?_eq_find? : t.findNamed? name p = (t.indicesOf name).find? fun i => (t.get? i).any p := by
  unfold findNamed?
  congr 1
  funext i
  cases t.get? i <;> rfl

/-- Where nothing was found, nothing but the new symbol is. -/
theorem eq_size_of_findNamed?_append (hnone : t.findNamed? name p = none)
    (hsome : (t.append x).findNamed? name p = some i) : i = t.size := by
  refine Decidable.byContradiction fun hne => ?_
  rw [findNamed?_eq_find?] at hnone hsome
  have hmem : i ∈ t.indicesOf name := by
    have hlisted := List.mem_of_find?_eq_some hsome
    rw [indicesOf_append] at hlisted
    split at hlisted
    · simpa [hne] using hlisted
    · exact hlisted
  have hfound := List.find?_some hsome
  rw [get?_append_of_ne hne] at hfound
  exact List.find?_eq_none.mp hnone i hmem hfound

/-- A new symbol that does not satisfy the condition is not found. -/
theorem findNamed?_append_of_not (hx : p { x with position := t.size } = false) :
    (t.append x).findNamed? name p = t.findNamed? name p := by
  have hend : t.get? t.size = none := by simp [get?, size]
  have hsame (i : Nat) : ((t.append x).get? i).any p = (t.get? i).any p := by
    by_cases hi : i = t.size
    · rw [hi, get?_append_size, hend]
      exact hx
    · rw [get?_append_of_ne hi]
  rw [findNamed?_eq_find?, findNamed?_eq_find?, indicesOf_append]
  simp only [hsame]
  split
  · simp [List.find?_append, hend]
  · rfl

theorem findNamed?_append_isSome (hx : p { x with position := t.size } = true) :
    ((t.append x).findNamed? x.name p).isSome := by
  rw [findNamed?_eq_find?, List.find?_isSome, indicesOf_append, if_pos rfl]
  refine ⟨t.size, by simp, ?_⟩
  rw [get?_append_size]
  exact hx

end SymbolTable

namespace Lowering.Sight

variable {s : Session} {f : Frame} {hd : Header} {name : String} {r : SymbolRef}

section
variable (hblock : s.header? f.block = some hd) (x : Symbol)
include hblock

theorem symbolsOf_entered (id : Nat) :
    (sightFrom f (s.enterLocal f.block x)).symbolsOf id =
      if f.block = id then hd.symbols.append x else (sightFrom f s).symbolsOf id := by
  have hheader : (s.enterLocal f.block x).header? id =
      if f.block = id then (s.header? id).map fun h => { h with symbols := h.symbols.append x }
      else s.header? id :=
    Session.header?_modifyBlock_eq (k := fun h => { h with symbols := h.symbols.append x })
      (fun _ => rfl) s f.block id
  rw [symbolsOf_eq, symbolsOf_eq]
  change (((s.enterLocal f.block x).header? id).map Header.symbols).getD {} =
    if f.block = id then hd.symbols.append x else ((s.header? id).map Header.symbols).getD {}
  rw [hheader]
  split
  · next heq =>
    rw [← heq, hblock]
    rfl
  · rfl

theorem symbolsOf_own : (sightFrom f s).symbolsOf f.block = hd.symbols := by
  rw [symbolsOf_eq]
  change ((s.header? f.block).map Header.symbols).getD {} = hd.symbols
  rw [hblock]
  rfl

omit hblock in
theorem blocks_entered : (sightFrom f (s.enterLocal f.block x)).blocks = (sightFrom f s).blocks := by
  have hparent (id : Nat) : ((s.enterLocal f.block x).header? id).map Header.parent =
      (s.header? id).map Header.parent := by
    rw [Session.enterLocal, Session.header?_modifyBlock_eq
      (k := fun h => { h with symbols := h.symbols.append x }) fun _ => rfl]
    split
    · cases s.header? id <;> rfl
    · rfl
  unfold sightFrom
  rw [Session.enclosing?_congr (t := s.enterLocal f.block x) (Session.size_blocks_modifyBlock _ _ _) hparent]

/-- Where a lookup in a block found nothing, it finds only what was entered. -/
theorem findNamed?_entered {id i : Nat} {p : Symbol → Bool}
    (hnone : ((sightFrom f s).symbolsOf id).findNamed? name p = none)
    (hsome : ((sightFrom f (s.enterLocal f.block x)).symbolsOf id).findNamed? name p = some i) :
    (⟨.block id, i⟩ : SymbolRef) = ⟨.block f.block, hd.symbols.size⟩ := by
  rw [symbolsOf_entered hblock] at hsome
  split at hsome
  · next heq =>
    subst heq
    rw [symbolsOf_own hblock] at hnone
    rw [SymbolTable.eq_size_of_findNamed?_append hnone hsome]
  · rw [hnone] at hsome
    cases hsome

theorem inBlock?_entered {id : Nat} (hnone : (sightFrom f s).inBlock? name id = none)
    (hsome : (sightFrom f (s.enterLocal f.block x)).inBlock? name id = some r) :
    r = ⟨.block f.block, hd.symbols.size⟩ := by
  obtain ⟨i, hi, rfl⟩ := Option.map_eq_some_iff.mp hsome
  exact findNamed?_entered hblock x (Option.map_eq_none_iff.mp hnone) hi

theorem inProcedure?_entered (hnone : (sightFrom f s).inProcedure? name = none)
    (hsome : (sightFrom f (s.enterLocal f.block x)).inProcedure? name = some r) :
    r = ⟨.block f.block, hd.symbols.size⟩ := by
  unfold inProcedure? at hnone hsome
  have hframe (s : Session) : (sightFrom f s).frame = f := rfl
  rw [hframe] at hnone hsome
  split at hsome
  · next g body hg hbody =>
    rw [hg, hbody] at hnone
    obtain ⟨i, hi, rfl⟩ := Option.map_eq_some_iff.mp hsome
    exact findNamed?_entered hblock x (Option.map_eq_none_iff.mp hnone) hi
  · cases hsome

theorem inBlocks_entered (hnone : (sightFrom f s).inBlocks name = .unbound)
    (hsome : (sightFrom f (s.enterLocal f.block x)).inBlocks name = .found r) :
    r = ⟨.block f.block, hd.symbols.size⟩ := by
  unfold inBlocks at hnone hsome
  rw [blocks_entered] at hsome
  split at hnone
  · cases hnone
  · next hproc =>
    split at hnone
    · cases hnone
    · next hblocks =>
      split at hsome
      · next r' hr' =>
        cases hsome
        exact inProcedure?_entered hblock x hproc hr'
      · split at hsome
        · next r' hr' =>
          cases hsome
          obtain ⟨id, hid, hfound⟩ := List.exists_of_findSome?_eq_some hr'
          exact inBlock?_entered hblock x (List.findSome?_eq_none_iff.mp hblocks id hid) hfound
        · cases hsome

omit hblock in
theorem inBlocks_ne_inaccessible {v : Sight} : v.inBlocks name ≠ .inaccessible r := by
  unfold inBlocks
  split
  · exact Resolution.noConfusion
  · split <;> exact Resolution.noConfusion

omit hblock in
/-- Members are told apart by the classes, and addressed through the entries of static ones. -/
theorem inClass_of_entries (hentry : ∀ owner, staticEntry? (sightFrom f (s.enterLocal f.block x)) owner name =
    staticEntry? (sightFrom f s) owner name) (cls : Nat) :
    (sightFrom f (s.enterLocal f.block x)).inClass cls name = (sightFrom f s).inClass cls name := by
  unfold inClass
  simp only [hentry]
  rfl

/-- A symbol that is not static changes nothing about members. -/
theorem inClass_entered (hstatic : x.isStatic = false) (cls : Nat) :
    (sightFrom f (s.enterLocal f.block x)).inClass cls name = (sightFrom f s).inClass cls name := by
  refine inClass_of_entries x (fun owner => ?_) cls
  unfold staticEntry?
  rw [symbolsOf_entered hblock]
  split
  · next heq =>
    rw [SymbolTable.findNamed?_append_of_not (by simp [hstatic]), ← symbolsOf_own hblock, heq]
  · rfl

theorem inScope_entered (hstatic : x.isStatic = false)
    (hfree : ∀ r, (sightFrom f s).inScope name ≠ .found r)
    (hfound : (sightFrom f (s.enterLocal f.block x)).inScope name = .found r) :
    r = ⟨.block f.block, hd.symbols.size⟩ := by
  have hrest (hfree : ∀ r, (sightFrom f s).inBlocks name ≠ .found r)
      (hfound : (sightFrom f (s.enterLocal f.block x)).inBlocks name = .found r) :
      r = ⟨.block f.block, hd.symbols.size⟩ := by
    cases hb : (sightFrom f s).inBlocks name with
    | found r' => exact absurd hb (hfree r')
    | inaccessible r' => exact absurd hb inBlocks_ne_inaccessible
    | unbound => exact inBlocks_entered hblock x hb hfound
  have hframe (s : Session) : (sightFrom f s).frame = f := rfl
  unfold inScope at hfree hfound
  rw [hframe] at hfree hfound
  cases hcls : f.scope.classScope with
  | none =>
    rw [hcls] at hfree hfound
    exact hrest hfree hfound
  | some cls =>
    rw [hcls] at hfree hfound
    dsimp only at hfree hfound
    rw [inClass_entered hblock x hstatic] at hfound
    cases hc : (sightFrom f s).inClass cls name with
    | unbound =>
      rw [hc] at hfree hfound
      exact hrest hfree hfound
    | found r' =>
      rw [hc] at hfree
      exact absurd rfl (hfree r')
    | inaccessible r' =>
      rw [hc] at hfound
      cases hfound

/-- What a name stands for behind the declaration, if it stood for nothing that may be used. -/
theorem resolve_entered (hstatic : x.isStatic = false)
    (hfree : ∀ r, (sightFrom f s).resolve name ≠ .found r)
    (hfound : (sightFrom f (s.enterLocal f.block x)).resolve name = .found r) :
    r = ⟨.block f.block, hd.symbols.size⟩ := by
  have hif {b : Bool} {o o' : Option SymbolRef}
      (h : o = none → o' = some r → r = ⟨.block f.block, hd.symbols.size⟩)
      (hnone : (if b then o else none) = none) (hsome : (if b then o' else none) = some r) :
      r = ⟨.block f.block, hd.symbols.size⟩ := by
    cases b with
    | true => exact h hnone hsome
    | false => cases hsome
  -- A lookup goes from step to step; no step found anything before.
  unfold resolve at hfree hfound
  split at hfree
  · exact absurd rfl (hfree _)
  · next hown =>
    split at hfound
    · next r' hr' =>
      cases hfound
      exact hif (inBlock?_entered hblock x) hown hr'
    · split at hfound
      · cases hfound
      · next hvoid =>
        have hclass : (sightFrom f s).frame.scope.classScope ≠ some Primitive.void.uid := hvoid
        rw [if_neg hclass] at hfree
        split at hfree
        · exact absurd rfl (hfree _)
        · next hwatched =>
          split at hfound
          · next r' hr' =>
            cases hfound
            exact hif (inProcedure?_entered hblock x) hwatched hr'
          · exact inScope_entered hblock x hstatic hfree hfound

/-- Behind the declaration of a visible symbol its name is not unbound. -/
theorem resolve_entered_ne (hsees : (sightFrom f s).isVisible { x with position := hd.symbols.size } = true)
    (hvoid : f.scope.classScope ≠ some Primitive.void.uid) (henclosing : (s.enclosing? f.block).isSome) :
    (sightFrom f (s.enterLocal f.block x)).resolve x.name ≠ .unbound := by
  have hhit : ((sightFrom f (s.enterLocal f.block x)).inBlock? x.name f.block).isSome := by
    unfold inBlock?
    rw [symbolsOf_entered hblock, if_pos rfl, Option.isSome_map]
    exact SymbolTable.findNamed?_append_isSome hsees
  have hblocks : (sightFrom f (s.enterLocal f.block x)).inBlocks x.name ≠ .unbound := by
    unfold inBlocks
    rw [blocks_entered]
    split
    · exact Resolution.noConfusion
    · split
      · exact Resolution.noConfusion
      · next hnone =>
        have hmem : f.block ∈ (sightFrom f s).blocks := by
          obtain ⟨blocks, hblocks⟩ := Option.isSome_iff_exists.mp henclosing
          change f.block ∈ (s.enclosing? f.block).getD []
          rw [hblocks]
          exact Session.mem_enclosingFrom hblocks
        have hmissed := List.findSome?_eq_none_iff.mp hnone f.block hmem
        rw [hmissed] at hhit
        cases hhit
  have hclass : (sightFrom f (s.enterLocal f.block x)).frame.scope.classScope ≠ some Primitive.void.uid :=
    hvoid
  unfold resolve
  split
  · exact Resolution.noConfusion
  · rw [if_neg hclass]
    split
    · exact Resolution.noConfusion
    · unfold inScope
      split
      · exact hblocks
      · split
        · exact hblocks
        · next hne => exact hne

end

end Lowering.Sight

end Diglot
