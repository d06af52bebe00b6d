import Diglot.Proofs.Ahead

/-! # What a name stands for behind its declaration

A declaration always puts a symbol into the block. Its name stands for the new symbol only if it is the first of
that name in its scope (`Sight.ownSymbol?`), and if no member of the class goes before it (`Sight.memberFirst?`):
`Entered.resolve_name` tells what the name stands for in every case.
-/

set_option autoImplicit false

namespace Diglot

open Lowering

namespace SymbolTable

variable {t : SymbolTable} {x : Symbol} {name : String} {p : Symbol → Bool} {i : Nat}

/-- What was found first stays the first. -/
theorem findNamed?_append_of_some (ht : t.Indexed) (h : t.findNamed? name p = some i) :
    (t.append x).findNamed? name p = some i := by
  have hsame (j : Nat) (hj : j ∈ t.indicesOf name) : ((t.append x).get? j).any p = (t.get? j).any p := by
    rw [get?_append_of_lt x (ht.lt_size hj)]
  rw [findNamed?_eq_find?] at h ⊢
  rw [indicesOf_append]
  split
  · rw [List.find?_append, List.find?_congr hsame, h]
    rfl
  · rw [List.find?_congr hsame, h]

theorem findNamed?_append_self (ht : t.Indexed) (hx : p { x with position := t.size } = true) :
    (t.append x).findNamed? x.name p = some ((t.findNamed? x.name p).getD t.size) := by
  cases hfound : t.findNamed? x.name p with
  | some i => exact findNamed?_append_of_some ht hfound
  | none =>
    obtain ⟨i, hi⟩ := Option.isSome_iff_exists.mp (findNamed?_append_isSome (t := t) (x := x) hx)
    rw [hi, eq_size_of_findNamed?_append hfound hi]
    rfl

end SymbolTable

/-- A block is the innermost one around its code. -/
theorem Session.head?_enclosingFrom {s : Session} {fuel id : Nat} {blocks : List Nat}
    (h : s.enclosingFrom fuel id = some blocks) : blocks.head? = some id := by
  cases fuel with
  | zero => cases h
  | succ fuel =>
    unfold enclosingFrom at h
    split at h
    · cases h
    · split at h
      · cases h
        rfl
      · obtain ⟨rest, -, rfl⟩ := Option.map_eq_some_iff.mp h
        rfl

namespace Lowering

namespace Sight

/-- The code is the body of a procedure. -/
def isProcedureBody (v : Sight) : Bool := v.frame.scope.procedure.isSome && v.frame.scope.isBody v.frame.block

/-- What the scope of the code has declared under a name: the procedure in its body, and else the block. -/
def ownSymbol? (v : Sight) (name : String) : Option SymbolRef :=
  if v.isProcedureBody then v.inProcedure? name else v.inBlock? name v.frame.block

/-- The member of the class that goes before the variables of a name, unless the code stands in a nested block. -/
def memberFirst? (v : Sight) (name : String) : Option Resolution :=
  if v.isNested then none
  else
    v.frame.scope.classScope.bind fun cls =>
      match v.inClass cls name with
      | .unbound => none
      | resolution => some resolution

variable {v : Sight} {name : String} {r : SymbolRef}

/-- A name that the scope of the code has declared stands for that, unless a member goes before. -/
theorem resolve_of_ownSymbol? (hvoid : v.frame.scope.classScope ≠ some Primitive.void.uid)
    (hw : v.session.isWatching = false) (hblock : v.blocks.head? = some v.frame.block)
    (h : v.ownSymbol? name = some r) : v.resolve name = (v.memberFirst? name).getD (.found r) := by
  have hblocks (hnested : v.isNested = false) : v.inBlocks name = .found r := by
    unfold inBlocks
    unfold ownSymbol? at h
    cases hbody : v.isProcedureBody with
    | true =>
      rw [hbody, if_pos rfl] at h
      rw [h]
    | false =>
      rw [hbody, if_neg Bool.false_ne_true] at h
      obtain ⟨rest, hrest⟩ := List.head?_eq_some_iff.mp hblock
      have hnone : v.frame.scope.procedure = none := by
        unfold isNested at hnested
        unfold isProcedureBody at hbody
        cases hp : v.frame.scope.procedure with
        | none => rfl
        | some p =>
          rw [hp] at hnested hbody
          cases hb : v.frame.scope.isBody v.frame.block <;> simp [hb] at hnested hbody
      have hproc : v.inProcedure? name = none := by
        unfold inProcedure? Scope.function
        rw [hnone]
        rfl
      rw [hproc, hrest, List.findSome?_cons, h]
  unfold resolve memberFirst?
  cases hnested : v.isNested with
  | true =>
    have hbody : v.isProcedureBody = false := by
      unfold isNested at hnested
      unfold isProcedureBody
      cases hb : v.frame.scope.isBody v.frame.block <;> simp_all
    unfold ownSymbol? at h
    rw [hbody, if_neg Bool.false_ne_true] at h
    rw [if_pos rfl, h]
    rfl
  | false =>
    rw [if_neg Bool.false_ne_true, if_neg Bool.false_ne_true]
    dsimp only
    rw [if_neg hvoid, hw, if_neg Bool.false_ne_true]
    unfold inScope
    dsimp only
    rw [hblocks hnested]
    cases v.frame.scope.classScope with
    | none => rfl
    | some cls =>
      change (match v.inClass cls name with | .unbound => _ | resolution => resolution) =
        Option.getD (match v.inClass cls name with | .unbound => none | resolution => some resolution) _
      cases v.inClass cls name <;> rfl

/-- What the scope has declared is a symbol. -/
theorem symbol?_ownSymbol? (h : v.ownSymbol? name = some r) : (v.session.symbol? r).isSome := by
  have hfound {id i : Nat} {p : Symbol → Bool} (hi : (v.symbolsOf id).findNamed? name p = some i) :
      (v.session.symbol? ⟨.block id, i⟩).isSome := by
    obtain ⟨x, hx, -⟩ := SymbolTable.findNamed?_eq_some hi
    rw [symbolsOf_eq] at hx
    rw [Session.symbol?_block]
    cases hd : v.session.header? id with
    | none =>
      rw [hd] at hx
      cases hx
    | some header =>
      rw [hd] at hx
      exact Option.isSome_iff_exists.mpr ⟨x, hx⟩
  unfold ownSymbol? at h
  split at h
  · unfold inProcedure? at h
    split at h
    · obtain ⟨i, hi, rfl⟩ := Option.map_eq_some_iff.mp h
      exact hfound hi
    · cases h
  · obtain ⟨i, hi, rfl⟩ := Option.map_eq_some_iff.mp h
    exact hfound hi

end Sight

namespace Entered

variable {f : Frame} {s t : State} {d : Declaration} {r : SymbolRef} {x : Symbol}

theorem place_block (h : Entered f d r x s t) : r.owner = .block f.block := by
  obtain ⟨hd, -, rfl, -⟩ := h.place
  rfl

theorem extends_session (h : Entered f d r x s t) : s.session.Extends t.session := by
  obtain ⟨counters, hnames⟩ := h.names
  have hcounted : s.session.Extends { s.session with counters } := Session.extends_of_headers rfl
  have hgrown := Session.extends_enterLocal { s.session with counters } f.block (s.session.declared f d)
  exact (hcounted.trans hgrown).trans (Session.extends_of_headers hnames.headers)

/-- There was nothing in the place of the variable. -/
theorem symbol_before (h : Entered f d r x s t) : s.session.symbol? r = none := by
  obtain ⟨hd, hblock, rfl, -⟩ := h.place
  rw [Session.symbol?_block, hblock]
  simp [SymbolTable.get?, SymbolTable.size]

/-- In its table the variable is found, if nothing was before. -/
theorem findNamed?_own (h : Entered f d r x s t) (hindexed : s.session.Indexed) {p : Symbol → Bool}
    (hp : p x = true) :
    ((sightFrom f t.session).symbolsOf f.block).findNamed? d.name p =
      some ((((sightFrom f s.session).symbolsOf f.block).findNamed? d.name p).getD r.index) := by
  obtain ⟨hd, hblock, rfl, rfl⟩ := h.place
  obtain ⟨counters, hnames⟩ := h.names
  have hbefore : (sightFrom f s.session).symbolsOf f.block = hd.symbols := Sight.symbolsOf_own hblock
  have hafter : (sightFrom f t.session).symbolsOf f.block = hd.symbols.append (s.session.declared f d) := by
    have hentered := Sight.symbolsOf_entered (s := { s.session with counters }) hblock (s.session.declared f d)
      f.block
    rw [if_pos rfl] at hentered
    rw [← hentered, Sight.symbolsOf_eq, Sight.symbolsOf_eq]
    exact congrArg (fun headers => ((headers f.block).map Header.symbols).getD {}) hnames.headers
  rw [hbefore, hafter]
  exact SymbolTable.findNamed?_append_self (hindexed _ _ hblock) hp

theorem inBlock?_own (h : Entered f d r x s t) (hown : f.IsOwn) (hindexed : s.session.Indexed) :
    (sightFrom f t.session).inBlock? d.name f.block =
      some (((sightFrom f s.session).inBlock? d.name f.block).getD r) := by
  have hvisible : (sightFrom f t.session).isVisible = (sightFrom f s.session).isVisible := by
    obtain ⟨counters, hnames⟩ := h.names
    have hparsing : t.session.isParsingModule = s.session.isParsingModule := hnames.isParsingModule
    funext y
    unfold Sight.isVisible
    change (_ && !(t.session.isParsingModule && _) && _) = (_ && !(s.session.isParsingModule && _) && _)
    rw [hparsing]
    rfl
  have hsees : (sightFrom f s.session).isVisible x = true := by
    obtain ⟨hd, -, -, rfl⟩ := h.place
    have hmember : ({ s.session.declared f d with position := hd.symbols.size } : Symbol).isMember = false :=
      isMember_declared hown.declaresLocals s.session d
    unfold Sight.isVisible
    rw [hmember]
    simp [Session.declared, symbolOf, sightFrom]
  unfold Sight.inBlock?
  rw [hvisible, h.findNamed?_own hindexed hsees]
  obtain ⟨hd, -, rfl, -⟩ := h.place
  cases ((sightFrom f s.session).symbolsOf f.block).findNamed? d.name (sightFrom f s.session).isVisible <;> rfl

theorem inProcedure?_own (h : Entered f d r x s t) (hindexed : s.session.Indexed)
    (hbody : (sightFrom f s.session).isProcedureBody = true) :
    (sightFrom f t.session).inProcedure? d.name = some (((sightFrom f s.session).inProcedure? d.name).getD r) := by
  unfold Sight.isProcedureBody Scope.isBody at hbody
  rw [Bool.and_eq_true, beq_iff_eq] at hbody
  obtain ⟨q, hq⟩ := Option.isSome_iff_exists.mp hbody.1
  have hfunction : f.scope.function = some q.index := by
    unfold Scope.function
    rw [show f.scope.procedure = some q from hq]
    rfl
  have hbody' : f.scope.body = some f.block := hbody.2
  have hlook (w : Session) : (sightFrom f w).inProcedure? d.name =
      (((sightFrom f w).symbolsOf f.block).findNamed? d.name fun y => y.function == some q.index).map
        fun i => ⟨.block f.block, i⟩ := by
    have hframe : (sightFrom f w).frame = f := rfl
    unfold Sight.inProcedure?
    rw [hframe, hfunction, hbody']
    rfl
  have hown : x.function = some q.index := by
    obtain ⟨hd, -, -, rfl⟩ := h.place
    exact hfunction
  rw [hlook, hlook, h.findNamed?_own hindexed (by simp [hown])]
  obtain ⟨hd, -, rfl, -⟩ := h.place
  cases ((sightFrom f s.session).symbolsOf f.block).findNamed? d.name fun y => y.function == some q.index <;> rfl

/-- The scope of the code has declared the variable, if it had declared nothing of the name before. -/
theorem ownSymbol?_eq (h : Entered f d r x s t) (hown : f.IsOwn) (hindexed : s.session.Indexed) :
    (sightFrom f t.session).ownSymbol? d.name = some (((sightFrom f s.session).ownSymbol? d.name).getD r) := by
  unfold Sight.ownSymbol?
  change (if (sightFrom f s.session).isProcedureBody then _ else _) =
    some ((if (sightFrom f s.session).isProcedureBody then _ else _ : Option SymbolRef).getD _)
  split
  · next hbody => exact h.inProcedure?_own hindexed hbody
  · exact h.inBlock?_own hown hindexed

/-- Variables change nothing about the members that go before them. -/
theorem memberFirst?_eq (h : Entered f d r x s t) (hfirst : f.scope.classScope ≠ none → f.block ≠ 0) (name : String) :
    (sightFrom f t.session).memberFirst? name = (sightFrom f s.session).memberFirst? name := by
  obtain ⟨hd, hblock, -, -⟩ := h.place
  obtain ⟨counters, hnames⟩ := h.names
  have hclass (cls : Nat) (hcls : f.scope.classScope = some cls) :
      (sightFrom f t.session).inClass cls name = (sightFrom f s.session).inClass cls name := by
    have hne : f.block ≠ 0 := hfirst (by simp [hcls])
    rw [Sight.inClass_sightFrom hnames]
    refine (Sight.inClass_of_entries (s := { s.session with counters }) _ (fun owner => ?_) cls).trans rfl
    unfold Sight.staticEntry?
    rw [Sight.symbolsOf_entered (s := { s.session with counters }) hblock, if_neg hne]
  unfold Sight.memberFirst?
  change (if (sightFrom f s.session).isNested then _ else f.scope.classScope.bind _) =
    if (sightFrom f s.session).isNested then _ else f.scope.classScope.bind _
  split
  · rfl
  · cases hcls : f.scope.classScope with
    | none => rfl
    | some cls =>
      dsimp only [Option.bind_some]
      rw [hclass cls hcls]

/-- What the name of a variable stands for behind its declaration: a member of the class that goes before it, or
what the scope had declared under the name already, or else the variable. -/
theorem resolve_name (h : Entered f d r x s t) (hf : f.InCode) (hs : f.Surveys s.session)
    (hw : s.session.isWatching = false) (hfirst : f.scope.classScope ≠ none → f.block ≠ 0) :
    (sightFrom f t.session).resolve d.name =
      ((sightFrom f s.session).memberFirst? d.name).getD
        (.found (((sightFrom f s.session).ownSymbol? d.name).getD r)) := by
  have hwatching : t.session.isWatching = false := by
    obtain ⟨counters, hnames⟩ := h.names
    exact hnames.isWatching.trans hw
  have hblocks : (sightFrom f t.session).blocks.head? = some f.block := by
    obtain ⟨blocks, hblocks⟩ := Option.isSome_iff_exists.mp (h.looksOut hs.looksOut).blocks
    unfold sightFrom
    dsimp only
    rw [hblocks]
    exact Session.head?_enclosingFrom hblocks
  rw [Sight.resolve_of_ownSymbol? (v := sightFrom f t.session) hf.notVoid hwatching hblocks
    (h.ownSymbol?_eq hf.own hs.indexed), h.memberFirst?_eq hfirst]

/-- The name of a variable stands for it behind its declaration, unless its scope had declared the name already or a
member of the class goes before it. -/
theorem resolve_name_iff (h : Entered f d r x s t) (hf : f.InCode) (hs : f.Surveys s.session)
    (hw : s.session.isWatching = false) (hfirst : f.scope.classScope ≠ none → f.block ≠ 0) :
    (sightFrom f t.session).resolve d.name = .found r ↔
      (sightFrom f s.session).ownSymbol? d.name = none ∧ (sightFrom f s.session).memberFirst? d.name = none := by
  rw [h.resolve_name hf hs hw hfirst]
  cases hmember : (sightFrom f s.session).memberFirst? d.name with
  | some resolution =>
    simp only [Option.getD_some, reduceCtorEq, and_false, iff_false]
    rintro rfl
    unfold Sight.memberFirst? at hmember
    split at hmember
    · cases hmember
    obtain ⟨cls, hcls, hclass⟩ := Option.bind_eq_some_iff.mp hmember
    have hfound : (sightFrom f s.session).inClass cls d.name = .found r := by
      split at hclass
      · cases hclass
      · exact Option.some.inj hclass
    have hne : f.block ≠ 0 := hfirst (by rw [show f.scope.classScope = some cls from hcls]; simp)
    have hblock := h.place_block
    obtain ⟨owner, i, rfl⟩ | ⟨i, rfl⟩ := Sight.inClass_found hfound
    · cases hblock
    · exact hne (Owner.block.inj hblock).symm
  | none =>
    cases hown : (sightFrom f s.session).ownSymbol? d.name with
    | none => simp
    | some r' =>
      simp only [Option.getD_none, Option.getD_some, Resolution.found.injEq, reduceCtorEq, false_and, iff_false]
      rintro rfl
      have hthere := Sight.symbol?_ownSymbol? hown
      rw [show (sightFrom f s.session).session.symbol? r' = none from h.symbol_before] at hthere
      cases hthere

end Entered

end Lowering

end Diglot
