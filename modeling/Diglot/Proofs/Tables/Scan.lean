import Mathlib.Data.List.Basic
import Mathlib.Data.List.Find
import Mathlib.Data.List.Induction
import Diglot.Symbol

/-! # Lookups by name are scans

A symbol table keeps an index from names to positions beside its symbols. Only `append` writes the index,
while the procedures of symbols may change behind it.

* `SymbolTable.Edit` is a change of a table, and `SymbolTable.build` the table that changes lead to.
* `Edit.list` makes the same changes to a plain list of symbols.
* `lookups_scan`: a table that is built by any changes answers as a scan of that list would.
-/

set_option autoImplicit false

namespace Diglot.SymbolTable

/-- A change of a table. -/
inductive Edit where
  | append (s : Symbol)
  | setFunction (i : Nat) (function : Option Nat)

namespace Edit

/-- The change of a table with an index. -/
def table (t : SymbolTable) : Edit → SymbolTable
  | append s => t.append s
  | setFunction i function => t.setFunction i function

/-- The change of a plain list. -/
def list (l : List Symbol) : Edit → List Symbol
  | append s => l ++ [{ s with position := l.length }]
  | setFunction i function => l.modify i fun s => { s with function }

end Edit

/-- The table that changes lead to. -/
def build (edits : List Edit) : SymbolTable := edits.foldl Edit.table {}

/-- The index lists the positions that a scan of the symbols finds. -/
def IsScanned (t : SymbolTable) : Prop :=
  ∀ name, t.indicesOf name = t.symbols.toList.findIdxs fun x => x.name == name

theorem isScanned_empty : ({} : SymbolTable).IsScanned := fun _ => rfl

variable {t : SymbolTable}

theorem IsScanned.append (h : t.IsScanned) (s : Symbol) : (t.append s).IsScanned := by
  intro name
  have hsymbols : (t.append s).symbols.toList = t.symbols.toList ++ [{ s with position := t.size }] :=
    Array.toList_push
  have hlast : [{ s with position := t.size }].findIdxs (fun x : Symbol => x.name == name) t.size =
      if name = s.name then [t.size] else [] := by
    by_cases hname : name = s.name
    · simp [hname]
    · simp [hname, Ne.symm hname]
  rw [indicesOf_append, hsymbols, List.findIdxs_append, ← h name, Nat.zero_add, Array.length_toList]
  change _ = _ ++ [{ s with position := t.size }].findIdxs _ t.size
  rw [hlast]
  split
  · rfl
  · rw [List.append_nil]

/-- The index does not know of procedures, and names stay as they are. -/
theorem IsScanned.setFunction (h : t.IsScanned) (i : Nat) (function : Option Nat) :
    (t.setFunction i function).IsScanned := by
  intro name
  have hnames : (t.setFunction i function).symbols.toList.map Symbol.name =
      t.symbols.toList.map Symbol.name := by
    refine List.ext_getElem? fun j => ?_
    simp only [SymbolTable.setFunction, Array.toList_modify, List.getElem?_map, List.getElem?_modify]
    cases t.symbols.toList[j]? with
    | none => rfl
    | some x => by_cases hj : i = j <;> simp [hj]
  have hscan (l : List Symbol) : l.findIdxs (fun x => x.name == name) =
      (l.map Symbol.name).findIdxs (· == name) := by
    rw [List.findIdxs_map]
    rfl
  change t.indicesOf name = _
  rw [hscan, hnames, ← hscan, h name]

/-- The first position under a name whose symbol satisfies a condition is the first one of all whose
symbol has the name and satisfies the condition. -/
theorem IsScanned.findNamed?_eq (h : t.IsScanned) (name : String) (p : Symbol → Bool) :
    t.findNamed? name p = t.symbols.toList.findIdx? fun x => x.name == name && p x := by
  have hlist (l : List Symbol) :
      (l.findIdxs fun x => x.name == name).find? (fun i => (l[i]?).any p) =
        l.findIdx? fun x => x.name == name && p x := by
    -- The induction is on the end of the list: what is in front keeps its positions.
    induction l using List.reverseRecOn with
    | nil => rfl
    | append_singleton l x ih =>
      have hfront : (l.findIdxs fun x => x.name == name).find? (fun i => ((l ++ [x])[i]?).any p) =
          (l.findIdxs fun x => x.name == name).find? (fun i => (l[i]?).any p) := by
        refine List.find?_congr fun i hi => ?_
        rw [List.getElem?_append_left (by simpa using List.lt_add_of_mem_findIdxs i hi)]
      rw [List.findIdxs_append, List.find?_append, hfront, ih, List.findIdx?_append]
      cases l.findIdx? fun x => x.name == name && p x with
      | some i => rfl
      | none => by_cases hx : (x.name == name) = true <;> by_cases hp : p x = true <;> simp [hx, hp]
  unfold findNamed?
  rw [h name, ← hlist]
  refine List.find?_congr fun i _ => ?_
  rw [Array.getElem?_toList]
  change _ = Option.any p (t.get? i)
  cases t.get? i <;> rfl

theorem isScanned_foldl (h : t.IsScanned) (edits : List Edit) : (edits.foldl Edit.table t).IsScanned := by
  induction edits generalizing t with
  | nil => exact h
  | cons edit rest ih =>
    cases edit with
    | append s => exact ih (h.append s)
    | setFunction i function => exact ih (h.setFunction i function)

theorem isScanned_build (edits : List Edit) : (build edits).IsScanned :=
  isScanned_foldl isScanned_empty edits

/-- The symbols of a table are those of the plain list. -/
theorem symbols_build (edits : List Edit) : (build edits).symbols.toList = edits.foldl Edit.list [] := by
  have hfold (t : SymbolTable) :
      (edits.foldl Edit.table t).symbols.toList = edits.foldl Edit.list t.symbols.toList := by
    induction edits generalizing t with
    | nil => rfl
    | cons edit rest ih =>
      rw [List.foldl_cons, List.foldl_cons, ih]
      cases edit with
      | append s => simp [Edit.table, Edit.list, SymbolTable.append]
      | setFunction i function => simp [Edit.table, Edit.list, SymbolTable.setFunction]
  exact hfold {}

/-- Every symbol of the plain list tells its position. -/
theorem positions_list (edits : List Edit) :
    (edits.foldl Edit.list []).map Symbol.position = List.range (edits.foldl Edit.list []).length := by
  have hstep (l : List Symbol) (h : l.map Symbol.position = List.range l.length) (edit : Edit) :
      (edit.list l).map Symbol.position = List.range (edit.list l).length := by
    cases edit with
    | append s => simp [Edit.list, h, List.range_succ]
    | setFunction i function =>
      have hsame : ((Edit.setFunction i function).list l).map Symbol.position =
          l.map Symbol.position := by
        refine List.ext_getElem? fun j => ?_
        simp only [Edit.list, List.getElem?_map, List.getElem?_modify]
        cases l[j]? with
        | none => rfl
        | some x => by_cases hj : i = j <;> simp [hj]
      rw [hsame, h, Edit.list, List.length_modify]
  have hfold (l : List Symbol) (h : l.map Symbol.position = List.range l.length) :
      (edits.foldl Edit.list l).map Symbol.position = List.range (edits.foldl Edit.list l).length := by
    induction edits generalizing l with
    | nil => exact h
    | cons edit rest ih => exact ih _ (hstep l h edit)
  exact hfold [] rfl

/-- A table that was built by any changes has the symbols of the plain list that the same changes make,
each of which tells its position. Its lookups by name agree with scans of that list: they list all
positions of a name in increasing order, and find the first position of a name in a scope. -/
theorem lookups_scan (edits : List Edit) :
    let t := build edits
    let l := edits.foldl Edit.list []
    t.symbols.toList = l ∧
      l.map Symbol.position = List.range l.length ∧
      (∀ name, t.indicesOf name = l.findIdxs fun x => x.name == name) ∧
      (∀ name classScope function, t.indexOf? name classScope function =
        l.findIdx? fun x => x.name == name && (x.classScope == classScope && x.function == function)) ∧
      ∀ name function, t.indexInFunction? name function =
        l.findIdx? fun x => x.name == name && x.function == function := by
  intro t l
  have hsymbols : t.symbols.toList = l := symbols_build edits
  have hscan : t.IsScanned := isScanned_build edits
  refine ⟨hsymbols, positions_list edits, fun name => ?_, fun name classScope function => ?_,
    fun name function => ?_⟩
  · rw [← hsymbols]
    exact hscan name
  · rw [← hsymbols]
    exact hscan.findNamed?_eq name _
  · rw [← hsymbols]
    exact hscan.findNamed?_eq name _

end Diglot.SymbolTable
