import Diglot.Proofs.Globals.Session
import Diglot.Proofs.Law.Statement

/-! # Laws hold in all sessions

A law that code keeps while it is lowered holds of all code that calls have left, halted ones included
(`Used.lawful`), and of the code of each watch expression in the scope of the block that it belongs to
(`Used.lawful_watch`).
-/

set_option autoImplicit false

namespace Diglot

open Lowering

namespace Session

variable {s t : Session}

/-! ## Calls widen sessions -/

/-- A session whose blocks are extended, and nothing else of its tables. -/
theorem Extends.widens (h : s.Extends t) (hc : t.classes = s.classes)
    (hp : t.procedures = s.procedures) : s.Widens t := by
  have hprocedure : t.procedure? = s.procedure? := procedure?_congr hc hp
  refine ⟨fun id hd hs => ?_, Nat.le_of_eq (by rw [hc]), fun cls b hb => ?_, fun ⟨owner, i⟩ x hx => ?_,
    fun r p hr => ⟨p.block, p.entry, p.locals, by rw [hprocedure]; exact hr⟩,
    fun hs => ⟨h.indexed hs.blocks, by rw [hc]; exact hs.classes⟩⟩
  · obtain ⟨hd', ht, hext⟩ := h.old id hd hs
    exact ⟨hd', ht, hext.procedure⟩
  · rwa [base?, hc]
  · cases owner with
    | block id => exact h.symbol? hx
    | cls cls =>
      rw [symbol?_cls] at hx ⊢
      rwa [hc]

theorem widens_importSymbol (h : s.Used) (name : String) (type : Ty) (library : String) :
    s.Widens (s.importSymbol name type library).2 := by
  have hlater : s.Later (s.importSymbol name type library).2 :=
    (Leads.refl s).call (.importSymbol name type library) trivial
  have hext := hlater.extends h
  unfold Session.importSymbol at hext ⊢
  dsimp only at hext ⊢
  refine hext.widens ?_ ?_
  · change (if s.blocks.isEmpty then _ else s : Session).classes = _
    split <;> rfl
  · change (if s.blocks.isEmpty then _ else s : Session).procedures = _
    split <;> rfl

theorem Regular.widens {c : Class} {classes : ClassTable} (h : s.Regular (.addClass c))
    (happend : s.classes.append? c = some classes) : s.Widens { s with classes } := by
  obtain ⟨d, symbols, procedures, rfl, -⟩ := h
  have hindexed : ∀ (l : List Symbol) (u : SymbolTable), u.Indexed →
      (l.foldl SymbolTable.append u).Indexed := by
    intro l
    induction l with
    | nil => exact fun _ hu => hu
    | cons x rest ih => exact fun u hu => ih _ (hu.append x)
  exact widens_appendClass (hindexed symbols {} SymbolTable.indexed_empty) happend

theorem widens_unitStart (s : Session) (dialect : Dialect) : s.Widens (s.unitStart dialect).2 := by
  have hopen (u : Session) : (u.openUnit dialect).2.classes = u.classes ∧
      (u.openUnit dialect).2.procedures = u.procedures := by
    unfold openUnit
    split
    · split <;> exact ⟨rfl, rfl⟩
    · exact ⟨rfl, rfl⟩
  obtain ⟨hc, hp⟩ := hopen { s with isWatching := false }
  exact (s.extends_unitStart dialect).widens hc hp

/-! ## Code of all sessions -/

/-- The code of the blocks. -/
abbrev ofBlocks : Stage := { isWatching := false }

variable {L : Law}

/-- A block that is added has no code yet. -/
theorem text_openUnit (s : Session) (dialect : Dialect) {id : Nat} {k : BlockKind}
    {code : Array Instruction} (h : (s.openUnit dialect).2.text id = some (k, code)) :
    code = #[] ∨ s.text id = some (k, code) := by
  have hadd {parent : Option Nat} (h : (s.addBlock .global dialect parent).text id = some (k, code)) :
      code = #[] ∨ s.text id = some (k, code) := by
    rw [text_addBlock] at h
    split at h
    · cases h
      exact .inl rfl
    · exact .inr h
  unfold openUnit at h
  split at h
  · split at h
    · exact hadd h
    · dsimp only at h
      rw [text_modifyBlock] at h
      · exact .inr h
      · exact fun _ => rfl
      · exact fun _ => rfl
  · exact hadd h

theorem text_importSymbol (s : Session) (name : String) (type : Ty) (library : String) {id : Nat}
    {k : BlockKind} {code : Array Instruction}
    (h : (s.importSymbol name type library).2.text id = some (k, code)) :
    code = #[] ∨ s.text id = some (k, code) := by
  unfold importSymbol at h
  dsimp only at h
  rw [text_modifyBlock] at h
  · have hstart : (if s.blocks.isEmpty then s.addBlock .global .associative none else s).text id =
        some (k, code) := h
    split at hstart
    · rw [text_addBlock] at hstart
      split at hstart
      · cases hstart
        exact .inl rfl
      · exact .inr hstart
    · exact .inr hstart
  · exact fun _ => rfl
  · exact fun _ => rfl

/-- A unit is lowered by the law, and its session widens. -/
theorem Used.lawful_compile (h : s.Used) (hl : s.Listed) (unit : List Node) (dialect : Dialect) :
    s.Widens (s.compile unit dialect).2 ∧
      (L.Holds ofBlocks s → L.Holds ofBlocks (s.compile unit dialect).2) := by
  have hopen := s.widens_unitStart dialect
  obtain ⟨hready, hseated⟩ := h.fit.unitStart unit dialect
  have hcourse : Course True Anything (unitFrame (s.unitStart dialect).1 .global dialect unit)
      { session := (s.unitStart dialect).2 } (lowerCode unit) :=
    .lowerCode (fun n _ => steady n) (fun _ => hready) fun _ => hseated
  have hcode : Heeding L ofBlocks (lowerCode unit) := .lowerCode fun n _ => .statement rfl n
  have hlaw := hcode _ _ ⟨⟨hready, hopen.listed hl⟩, rfl, fun hw => by cases hw⟩
  have hend : (s.compile unit dialect).2 =
      final (lowerCode unit (unitFrame (s.unitStart dialect).1 .global dialect unit)
        { session := (s.unitStart dialect).2 }) := by
    rw [compile_eq]
    generalize lowerCode unit _ _ = r
    cases r <;> rfl
  rw [hend]
  refine ⟨hopen.trans (hcourse.widens hready), fun hs => hlaw.keeps ?_⟩
  refine Law.Holds.ofText hs hopen ?_ fun id k code hid => ?_
  · change (Session.openUnit _ dialect).2.watch = _
    unfold openUnit
    split
    · split <;> rfl
    · rfl
  · exact text_openUnit { s with isWatching := false } dialect hid

theorem isOwn_watchSite (s : Session) (id : Nat) (b : Block) :
    (s.watchSite id b).IsOwn ∧ (s.watchSite id b).scope.classScope = b.procedure.bind ProcRef.classScope := by
  unfold Frame.IsOwn watchSite scopeOf
  cases b.procedure with
  | none => exact ⟨rfl, rfl⟩
  | some r => exact ⟨rfl, rfl⟩

/-- A watch expression is lowered by the law, in the scope of the procedure of its block. -/
theorem Used.lawful_watchExpression (h : s.Used) (hl : s.Listed) {id : Nat} {b : Block}
    (hb : s.block? id = some b) (node : Node) :
    s.Widens (s.watchExpression id node).2 ∧
      (L.Holds ofBlocks s →
        L.Holds ⟨true, s.watch.size, b.procedure.bind ProcRef.classScope⟩
          (s.watchExpression id node).2) := by
  let o : Stage := ⟨true, s.watch.size, b.procedure.bind ProcRef.classScope⟩
  obtain ⟨hown, hscope⟩ := s.isOwn_watchSite id b
  have hopen : s.Widens { s with isWatching := true } := .ofTables rfl rfl rfl
  have hready := h.fit.watchStart hb
  have hcourse : Course True Anything (s.watchSite id b) { session := { s with isWatching := true } }
      (lowerWatch node) := Composed.lowerWatch (w := true) node (fun _ _ => trivial) _ _ fun _ => hready
  have hlaw : Heeds L o _ _ (lowerWatch node) :=
    Heeding.lowerWatch node _ _ ⟨⟨hready, hopen.listed hl⟩, hown, fun _ => hscope⟩
  have hend : (s.watchExpression id node).2 =
      { final (lowerWatch node (s.watchSite id b) { session := { s with isWatching := true } }) with
        isWatching := false } := by
    rw [watchExpression_eq hb]
    generalize lowerWatch node _ _ = r
    cases r <;> rfl
  have hclose (t : Session) : t.Widens { t with isWatching := false } := .ofTables rfl rfl rfl
  rw [hend]
  refine ⟨(hopen.trans (hcourse.widens hready)).trans (hclose _), fun hs => ?_⟩
  refine Law.Holds.ofText (hlaw.keeps fun ctx i hi => ?_) (hclose _) rfl fun _ _ _ hid => .inr hid
  cases hi with
  | block hid hi => exact L.widens hopen (hs _ _ (.block hid hi))
  | @watch j i _ hj hi =>
    -- The watch code begins where that of the session ends.
    have hlt : j < s.watch.size := (Array.getElem?_eq_some_iff.mp hi).1
    exact absurd hj (Nat.not_le_of_lt hlt)

/-- All tables list the positions of their names, and all code of the blocks is as the law wants it. -/
theorem Used.lawful (h : s.Used) (L : Law) : s.Listed ∧ L.Holds ofBlocks s := by
  have hold {s t : Session} (ih : s.Listed ∧ L.Holds ofBlocks s) (hst : s.Widens t)
      (hw : t.watch = s.watch)
      (htext : ∀ id k code, t.text id = some (k, code) → code = #[] ∨ s.text id = some (k, code)) :
      t.Listed ∧ L.Holds ofBlocks t := ⟨hst.listed ih.1, ih.2.ofText hst hw htext⟩
  obtain ⟨options, h⟩ := h
  induction h using Leads.induct with
  | refl =>
    refine ⟨⟨fun id hd hs => ?_, fun cls c hc => ?_⟩, fun ctx i hi => ?_⟩
    · cases hs
    · have hmem : c ∈ (Primitive.all.map fun p => ({ name := p.name, isPrimitive := true } : Class)) :=
        List.mem_toArray.mp (Array.mem_of_getElem? hc)
      obtain ⟨p, _, rfl⟩ := List.mem_map.mp hmem
      exact SymbolTable.indexed_empty
    · cases hi with
      | block hid _ => cases hid
      | watch hon _ _ => cases hon
  | setFile t file ih => exact hold ih (.ofTables rfl rfl rfl) rfl fun _ _ _ hid => .inr hid
  | setParsingModule t on ih => exact hold ih (.ofTables rfl rfl rfl) rfl fun _ _ _ hid => .inr hid
  | importSymbol t name type library ht ih =>
    refine hold ih (widens_importSymbol ⟨options, ht⟩ name type library) ?_ fun id k code =>
      text_importSymbol t name type library
    change (if t.blocks.isEmpty then _ else t : Session).watch = _
    split <;> rfl
  | addClass t c classes happend hregular ih =>
    exact hold ih (hregular.widens happend) rfl fun _ _ _ hid => .inr hid
  | addMethod t cls p _ ih =>
    exact hold ih (t.widens_register (.inClass cls) p) rfl fun _ _ _ hid => .inr hid
  | addProcedure t p _ ih => exact hold ih (t.widens_register .global p) rfl fun _ _ _ hid => .inr hid
  | compile t unit dialect _ ht ih =>
    obtain ⟨hwidens, hholds⟩ := Used.lawful_compile (L := L) ⟨options, ht⟩ ih.1 unit dialect
    exact ⟨hwidens.listed ih.1, hholds ih.2⟩
  | watchExpression t id b node hb _ ht ih =>
    obtain ⟨hwidens, hholds⟩ := Used.lawful_watchExpression (L := L) ⟨options, ht⟩ ih.1 hb node
    refine ⟨hwidens.listed ih.1, fun ctx i hi => ?_⟩
    cases hi with
    | block hid hi => exact hholds ih.2 _ _ (.block hid hi)
    | watch hon _ _ => cases hon

theorem Used.listed (h : s.Used) : s.Listed := by
  let anything : Law :=
    { allows := fun _ _ _ => True
      widens := fun _ _ => trivial
      patch := fun _ _ => trivial
      neutral := fun _ => trivial
      declared := fun _ _ _ => trivial
      access := fun _ _ _ _ _ => trivial
      call := fun _ _ _ _ => trivial }
  exact (h.lawful anything).1

/-- The code of a watch expression is as the law wants it in the scope of its block. -/
theorem Used.lawful_watch (h : s.Used) (L : Law) {id : Nat} {b : Block} (hb : s.block? id = some b)
    (node : Node) : L.Holds ⟨true, s.watch.size, b.procedure.bind ProcRef.classScope⟩
      (s.watchExpression id node).2 := by
  obtain ⟨hl, hs⟩ := h.lawful L
  exact (h.lawful_watchExpression hl hb node).2 hs

end Session

end Diglot
