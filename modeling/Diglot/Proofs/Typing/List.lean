import Diglot.Proofs.Anchors.Instance
import Diglot.Proofs.Chains.Temporary
import Diglot.Proofs.Numerals
import Diglot.Proofs.Typing.Congruence
import Mathlib.Data.List.Perm.Basic

/-! # The type of a list

The class of a list's elements is what its items agree on, and `var` if they agree on nothing; in which order the
items stand does not matter. The rank is read off the first items, whose subscripts it passes over.

* `LowersItems f s items types t`: the items are lowered one after another, and these are their types.
* `list_type`: the type of a list that has no subscripts, if literals keep their types.
* `subscripted_item_overcounted`: the rank of a list whose first item is an element of a list.
-/

set_option autoImplicit false

namespace Diglot.Lowering

variable {f : Frame} {s t : State} {items : List Node} {types : List Ty}

/-! ## Items one after another -/

/-- The items are lowered to their ends one after another, and have these types. -/
inductive LowersItems (f : Frame) : State → List Node → List Ty → State → Prop
  | nil (s : State) : LowersItems f s [] [] s
  | cons {item : Node} {rest : List Node} {type : Ty} {types : List Ty} {s t u : State}
      (first : expression item f s = .ok type t) (others : LowersItems f t rest types u) :
      LowersItems f s (item :: rest) (type :: types) u

/-- The type that items have in common. -/
def commonOf (common : Option Ty) (types : List Ty) : Option Ty :=
  types.foldl (fun common type => some (commonType common type)) common

/-- A literal keeps its type where types are not enforced. -/
theorem lowerLiteral_unenforced (henforce : s.session.options.enforceTypeCheck = false) (kind : LiteralKind)
    (source : String) (span : Span) (expected : Ty) :
    lowerLiteral kind source span expected f s = expression (.literal kind source span) f s := by
  have htype (expected : Ty) : literalType s.session.options (literalPrimitive kind) expected =
      .primitive (literalPrimitive kind) := by
    unfold literalType
    rw [henforce]
    rfl
  rw [expression_eq]
  change lowerLiteral kind source span expected f s = lowerLiteral kind source span .unknown f s
  unfold lowerLiteral
  rw [run_bind, run_bind, run_getSession]
  dsimp only
  rw [htype, htype]

/-- The items of a list are lowered like expressions where types are not enforced. -/
theorem lowerItems_eq_ok (henforce : s.session.options.enforceTypeCheck = false) {common result : Option Ty} :
    lowerItems expression common items f s = .ok result t ↔
      ∃ types, LowersItems f s items types t ∧ result = commonOf common types := by
  induction items generalizing common s with
  | nil =>
    constructor
    · intro hrun
      cases hrun
      exact ⟨[], .nil _, rfl⟩
    · rintro ⟨types, hlowers, rfl⟩
      cases hlowers
      rfl
  | cons item rest ih =>
    have hstep : lowerItems expression common (item :: rest) f s =
        (expression item >>= fun type => lowerItems expression (some (commonType common type)) rest) f s := by
      cases item with
      | literal kind source span =>
        change (lowerLiteral _ _ _ _ >>= _) f s = _
        rw [run_bind, run_bind, lowerLiteral_unenforced henforce]
      | _ => rfl
    rw [hstep, bind_eq_ok]
    constructor
    · rintro ⟨type, u, hitem, hrest⟩
      have henforce' := (congrArg Options.enforceTypeCheck (likewise_expression hitem).options).trans henforce
      obtain ⟨types, hlowers, rfl⟩ := (ih henforce').mp hrest
      exact ⟨type :: types, .cons hitem hlowers, rfl⟩
    · rintro ⟨_, @⟨⟩ | ⟨hitem, hrest⟩, rfl⟩
      have henforce' := (congrArg Options.enforceTypeCheck (likewise_expression hitem).options).trans henforce
      exact ⟨_, _, hitem, (ih henforce').mpr ⟨_, hrest, rfl⟩⟩

/-- An expression leaves its value on top of the stack, so that there is code to put it into. -/
theorem canEmit_of_expression {n : Node} {type : Ty} (hrun : expression n f s = .ok type t) :
    t.session.CanEmit f.block := by
  have hmild : Tame false true (expression n) := Mild.expression n
  have hgrows := hmild.emits f s type t hrun
  by_contra hcan
  obtain ⟨hwatching, hblock⟩ : t.session.isWatching = false ∧ t.session.block? f.block = none := by
    simpa [Session.CanEmit] using hcan
  have hempty : (t.session.stream f.block).size = 0 := by simp [Session.stream, hwatching, hblock]
  simp only [Bool.toNat_true] at hgrows
  omega

theorem LowersItems.canEmit (h : LowersItems f s items types t) (hitems : items ≠ []) :
    t.session.CanEmit f.block := by
  induction h with
  | nil s => exact absurd rfl hitems
  | cons first others ih =>
    cases others with
    | nil => exact canEmit_of_expression first
    | cons second others => exact ih nofun

/-! ## The class of the elements -/

theorem commonOf_cons (first : Ty) (rest : List Ty) :
    commonOf none (first :: rest) = commonOf (some first) rest := rfl

/-- The class in common is that of the first item as long as all others have it, and `var` from the first one on
that has not. -/
theorem commonOf_some (common : Ty) (types : List Ty) :
    ∃ type, commonOf (some common) types = some type ∧
      type.uid = if ∀ x ∈ types, x.uid = common.uid then common.uid else some Primitive.var.uid := by
  induction types generalizing common with
  | nil => exact ⟨common, rfl, by simp⟩
  | cons x rest ih =>
    by_cases hx : x.uid = common.uid
    · obtain ⟨type, htype, huid⟩ := ih common
      refine ⟨type, ?_, huid.trans ?_⟩
      · rw [← htype]
        change commonOf (some (if common.uid = x.uid then common else .var)) rest = _
        rw [if_pos hx.symm]
      · simp [hx]
    · obtain ⟨type, htype, huid⟩ := ih .var
      refine ⟨type, ?_, huid.trans ?_⟩
      · rw [← htype]
        change commonOf (some (if common.uid = x.uid then common else .var)) rest = _
        rw [if_neg (Ne.symm hx)]
      · have hvar : Ty.var.uid = some Primitive.var.uid := rfl
        simp [hx, hvar]

/-- The class of the elements is the one that all items have, if they have one, and otherwise `var`. -/
theorem elementUid_commonOf (htypes : types ≠ []) :
    (∀ uid, (∀ x ∈ types, x.uid = some uid) → elementUid (commonOf none types) = some uid) ∧
      ((¬ ∃ uid, ∀ x ∈ types, x.uid = some uid) →
        elementUid (commonOf none types) = some Primitive.var.uid) := by
  obtain ⟨first, rest, rfl⟩ := List.exists_cons_of_ne_nil htypes
  obtain ⟨type, htype, huid⟩ := commonOf_some first rest
  rw [commonOf_cons, htype]
  constructor
  · intro uid hall
    have hfirst := hall first (List.mem_cons_self ..)
    have hrest : ∀ x ∈ rest, x.uid = first.uid := fun x hx => (hall x (List.mem_cons_of_mem _ hx)).trans hfirst.symm
    rw [if_pos hrest, hfirst] at huid
    simp [elementUid, huid]
  · intro hnone
    by_cases hrest : ∀ x ∈ rest, x.uid = first.uid
    · cases hfirst : first.uid with
      | none =>
        rw [if_pos hrest, hfirst] at huid
        simp [elementUid, huid]
      | some uid =>
        refine absurd ⟨uid, fun x hx => ?_⟩ hnone
        rcases List.mem_cons.mp hx with rfl | hx
        · exact hfirst
        · exact (hrest x hx).trans hfirst
    · rw [if_neg hrest] at huid
      simp [elementUid, huid]

/-! ## The order of the items -/

/-- The node is lowered to its end in some session that is like this one, and has the type there. -/
def HasType (f : Frame) (s : Session) (n : Node) (type : Ty) : Prop :=
  ∃ t u, s.Likewise t.session ∧ expression n f t = .ok type u

theorem rightUnique_hasType (f : Frame) (s : Session) : Relator.RightUnique (HasType f s) := by
  rintro n type type' ⟨t, u, hst, hrun⟩ ⟨t', u', hst', hrun'⟩
  exact (Agree.expression n f t t' type type' u u' (hst.symm.trans hst') hrun hrun').1

theorem LowersItems.hasType (h : LowersItems f s items types t) {a : Session} (ha : a.Likewise s.session) :
    List.Forall₂ (HasType f a) items types := by
  induction h with
  | nil s => exact .nil
  | cons first others ih => exact .cons ⟨_, _, ha, first⟩ (ih (ha.trans (likewise_expression first)))

/-- The same items in another order have the same types in that order. -/
theorem LowersItems.perm {items' : List Node} {types' : List Ty} {t' : State} (h : LowersItems f s items types t)
    (h' : LowersItems f s items' types' t') (hperm : items.Perm items') : types.Perm types' :=
  List.rel_perm_imp (rightUnique_hasType f s.session) (h.hasType (.refl _)) (h'.hasType (.refl _)) hperm

theorem elementUid_perm {types' : List Ty} (htypes : types ≠ []) (hperm : types.Perm types') :
    elementUid (commonOf none types') = elementUid (commonOf none types) := by
  have htypes' : types' ≠ [] := fun h => htypes (by simpa [h] using hperm)
  obtain ⟨hsome, hnone⟩ := elementUid_commonOf htypes
  obtain ⟨hsome', hnone'⟩ := elementUid_commonOf htypes'
  by_cases hall : ∃ uid, ∀ x ∈ types, x.uid = some uid
  · obtain ⟨uid, hall⟩ := hall
    rw [hsome uid hall, hsome' uid fun x hx => hall x (hperm.mem_iff.mpr hx)]
  · rw [hnone hall, hnone' fun ⟨uid, hall'⟩ => hall ⟨uid, fun x hx => hall' x (hperm.mem_iff.mp hx)⟩]

/-! ## The rank -/

/-- No list has an arbitrary rank. -/
theorem literalRank_nonneg (items : List Node) : 0 ≤ literalRank items := by
  have hitem (n : Node) : 0 ≤ itemRank n := by
    induction hw : n.weight using Nat.strongRecOn generalizing n with
    | ind k ih =>
      cases n with
      | list items dims guides span =>
        cases items with
        | nil => exact le_rfl
        | cons first rest =>
          have hlt : first.weight < k := by
            rw [← hw]
            simp only [Node.weight, Node.weights]
            omega
          have hfirst := ih _ hlt first rfl
          simp only [itemRank, literalRank]
          omega
      | literal kind =>
        cases kind with
        | string => exact Int.one_nonneg
        | _ => exact le_rfl
      | _ => exact le_rfl
  cases items with
  | nil => exact le_rfl
  | cons first rest =>
    have hfirst := hitem first
    simp only [literalRank]
    omega

theorem literalRank_eq_zero : literalRank items = 0 ↔ items = [] := by
  cases items with
  | nil => exact ⟨fun _ => rfl, fun _ => rfl⟩
  | cons first rest =>
    have hpos : literalRank (first :: rest) ≠ 0 := by
      have hitem : 0 ≤ literalRank (first :: rest) - 1 := by
        cases first with
        | list items => simpa [literalRank, itemRank] using literalRank_nonneg items
        | literal kind => cases kind <;> simp [literalRank, itemRank]
        | _ => simp [literalRank, itemRank]
      omega
    exact ⟨fun h => absurd h hpos, nofun⟩

theorem rank_subscripted {type : Ty} (htype : 0 ≤ type.rank) (dims : Nat) :
    (type.subscripted dims).rank = max (type.rank - dims) 0 := by
  unfold Ty.subscripted
  rw [if_neg (by omega)]

/-! ## The list -/

/-- A list that is lowered to its end has the type of its items' common class and of its literal rank, with its
subscripts taken off. -/
theorem list_eq_ok (henforce : s.session.options.enforceTypeCheck = false) {dims : List Node} {guides : List Guide}
    {span : Span} {type : Ty} (hrun : expression (.list items dims guides span) f s = .ok type t) :
    ∃ types u, LowersItems { f with isGuided := false } s items types u ∧
      type = Ty.subscripted ⟨elementUid (commonOf none types), literalRank items⟩ dims.length := by
  rw [expression_eq] at hrun
  obtain ⟨common, u, hitems, hrun⟩ := bind_eq_ok.mp hrun
  obtain ⟨types, hlowers, rfl⟩ := (lowerItems_eq_ok henforce).mp hitems
  refine ⟨types, u, hlowers, ?_⟩
  obtain ⟨_, v, -, hrun⟩ := bind_eq_ok.mp hrun
  obtain ⟨_, w, -, hrun⟩ := bind_eq_ok.mp hrun
  have hend {x : State} (hrun : (do
      if ← guidesWanted then emitGuides guides
      return Ty.subscripted ⟨elementUid (commonOf none types), literalRank items⟩ dims.length : Lower Ty) f x =
        .ok type t) : type = Ty.subscripted ⟨elementUid (commonOf none types), literalRank items⟩ dims.length := by
    obtain ⟨wanted, y, -, hrun⟩ := bind_eq_ok.mp hrun
    rw [run_ite] at hrun
    split at hrun
    · obtain ⟨_, z, -, hrun⟩ := bind_eq_ok.mp hrun
      cases hrun
      rfl
    · cases hrun
      rfl
  rw [run_ite] at hrun
  split at hrun
  · obtain ⟨_, x, -, hrun⟩ := bind_eq_ok.mp hrun
    exact hend hrun
  · exact hend hrun

/-- A list that has items and no subscripts is lowered to its end if its items are. -/
theorem list_ok (henforce : s.session.options.enforceTypeCheck = false) (hitems : items ≠ [])
    (h : LowersItems { f with isGuided := false } s items types t) (guides : List Guide) (span : Span) :
    ∃ u, expression (.list items [] guides span) f s =
      .ok ⟨elementUid (commonOf none types), literalRank items⟩ u := by
  have hcan : t.session.CanEmit f.block := h.canEmit hitems
  have hcommon : lowerItems expression none items { f with isGuided := false } s = .ok (commonOf none types) t :=
    (lowerItems_eq_ok henforce).mpr ⟨types, h, rfl⟩
  obtain ⟨pc, u, halloca, hu⟩ := passes_emits (m := emitAlloca items.length false) (Mild.emits_emitWith _ _ _) hcan
  obtain ⟨v, code, hguides, -⟩ := passes_chainGuides (hu.canEmit hcan) guides
  refine ⟨v, ?_⟩
  rw [expression_eq]
  refine bind_eq_ok.mpr ⟨_, t, hcommon, bind_eq_ok.mpr ⟨pc, u, halloca, ?_⟩⟩
  exact (hguides _).trans (by rw [run_pure, List.length_nil, Ty.subscripted_zero])

/-- Where literals keep their types, a list of items that are all lowered to their ends is lowered to its end. Its
class is the one that all items have, or `var` if there is none, in whatever order the items stand. If the first item
is a list literal itself, the subscripts of that item are passed over: the rank is one more than that of the item
exactly if the item has no subscripts or no items. -/
theorem list_type (henforce : s.session.options.enforceTypeCheck = false) (hitems : items ≠ [])
    (h : LowersItems { f with isGuided := false } s items types t) (guides : List Guide) (span : Span) :
    ∃ type u, expression (.list items [] guides span) f s = .ok type u ∧
      (∀ uid, (∀ x ∈ types, x.uid = some uid) → type.uid = some uid) ∧
      ((¬ ∃ uid, ∀ x ∈ types, x.uid = some uid) → type.uid = some Primitive.var.uid) ∧
      (∀ items' type' u', items.Perm items' → expression (.list items' [] guides span) f s = .ok type' u' →
        type'.uid = type.uid) ∧
      ∀ inner dims guides' span' rest, items = .list inner dims guides' span' :: rest →
        ∃ first, types.head? = some first ∧ first.rank = max (type.rank - 1 - dims.length) 0 ∧
          (type.rank = first.rank + 1 ↔ dims = [] ∨ inner = []) := by
  obtain ⟨u, hrun⟩ := list_ok henforce hitems h guides span
  have htypes : types ≠ [] := by
    cases h with
    | nil => exact absurd rfl hitems
    | cons => exact nofun
  obtain ⟨hsame, hmixed⟩ := elementUid_commonOf htypes
  refine ⟨_, u, hrun, hsame, hmixed, fun items' type' u' hperm hrun' => ?_, ?_⟩
  · obtain ⟨types', t', h', rfl⟩ := list_eq_ok henforce hrun'
    rw [List.length_nil, Ty.subscripted_zero]
    exact elementUid_perm htypes (h.perm h' hperm)
  · rintro inner dims guides' span' rest rfl
    cases h with
    | @cons _ _ first types _ v _ hfirst hrest =>
      obtain ⟨inners, w, -, rfl⟩ := list_eq_ok henforce hfirst
      have hinner := literalRank_nonneg inner
      have hrank : literalRank (.list inner dims guides' span' :: rest) = literalRank inner + 1 := rfl
      refine ⟨_, rfl, ?_, ?_⟩
      · rw [rank_subscripted hinner, hrank]
        dsimp only
        omega
      · have hempty : inner = [] ↔ literalRank inner = 0 := literalRank_eq_zero.symm
        rw [rank_subscripted hinner, hrank, hempty, ← List.length_eq_zero_iff]
        dsimp only
        omega

/-- The list of one integer, with subscripts. -/
def integerItem (dims : List Node) : Node := .list [.literal .int "1" .nil] dims [] .nil

/-- A list of two lists of integers has a rank that is one more than theirs. -/
theorem nested_list_type :
    ∃ types t type u first, LowersItems blankFrame blankState [integerItem [], integerItem []] types t ∧
      expression (.list [integerItem [], integerItem []] [] [] .nil) blankFrame blankState = .ok type u ∧
      types.head? = some first ∧ type.rank = first.rank + 1 := by
  obtain ⟨type, u, hrun⟩ := ok_of_matches (m := expression (.list [integerItem [], integerItem []] [] [] .nil))
    (f := blankFrame) (s := blankState) (by decide +kernel)
  obtain ⟨types, t, hlowers, -⟩ := list_eq_ok rfl hrun
  obtain ⟨type', u', hrun', -, -, -, hrank⟩ :=
    list_type (f := blankFrame) rfl (List.cons_ne_nil _ _) hlowers [] .nil
  obtain ⟨first, hfirst, -, hiff⟩ := hrank _ _ _ _ _ rfl
  exact ⟨types, t, type', u', first, hlowers, hrun', hfirst, hiff.mpr (.inl rfl)⟩

/-- The element of a list of one integer is an integer, but the list that has it as its only item is of rank 2. -/
theorem subscripted_item_overcounted :
    let item := integerItem [.literal .int "0" .nil]
    blankState.session.options.enforceTypeCheck = false ∧
      (∃ t, expression item blankFrame blankState = .ok (.primitive .int) t) ∧
      ∃ u, expression (.list [item] [] [] .nil) blankFrame blankState = .ok ⟨some Primitive.int.uid, 2⟩ u := by
  intro item
  have hshown (n : Node) (type : Ty)
      (h : (match expression n blankFrame blankState with
        | .ok x _ => decide (x = type)
        | .error _ _ => false) = true) : ∃ t, expression n blankFrame blankState = .ok type t := by
    cases hrun : expression n blankFrame blankState with
    | error e t =>
      rw [hrun] at h
      cases h
    | ok x t =>
      rw [hrun] at h
      exact ⟨t, by rw [of_decide_eq_true h]⟩
  exact ⟨rfl, hshown _ _ (by decide +kernel), hshown _ _ (by decide +kernel)⟩

end Diglot.Lowering
