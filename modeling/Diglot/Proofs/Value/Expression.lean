import Diglot.Proofs.Depth
import Diglot.Proofs.Value.Source

/-! # Lowering computes the value of an expression

The code of a plain expression pushes its value, whatever operands and operators mean
(`expression_pushes`). Each form of expression has a lemma that takes the code of its parts for
granted; `Computes` is what they take for granted.
-/

set_option autoImplicit false

namespace Diglot.Value

open Lowering

/-- Wherever names are read through these operands, the part emits code that pushes the value of the
expression. -/
def Computes (names : Names) (part : LowerPart) (n : Node) : Prop :=
  ∀ f s, Ready names f s → Yields (part n) f s (Pushes · fun _ M => [denote M names n])

section
variable {names : Names} {part : LowerPart} {f : Frame} {s : State}

theorem unguided_eq {α : Type} (hf : f.isGuided = false) (m : Lower α) : unguided m f s = m f s := by
  have hsame : { f with isGuided := false } = f := by
    rw [← hf]
  rw [unguided, run_withReader, hsame]

theorem run_guidesWanted (h : Ready names f s) : guidesWanted f s = .ok false s := by
  simp [guidesWanted, h.notGuided]

/-! ## Subscripts -/

theorem yields_parts (nodes : List Node) (h : Ready names f s)
    (hparts : ∀ n ∈ nodes, Computes names part n) :
    Yields (nodes.forM fun n => do let _ ← part n) f s 
      (Pushes · fun _ M => denoteAll M names nodes) := by
  induction nodes generalizing s with
  | nil => exact .pure .nil
  | cons n rest ih =>
    have hfirst := hparts n (List.mem_cons_self ..) f s h
    have hone : Yields (do let _ ← part n) f s (Pushes · fun _ M => [denote M names n]) := by
      refine hfirst.bind fun a t code hg hcode => .pure ?_
      rwa [List.append_nil]
    refine Yields.bind hone fun a t code hg hcode => ?_
    refine (ih (h.grows hg) fun m hm => hparts m (List.mem_cons_of_mem n hm)).mono ?_
    intro code' hcode'
    exact hcode.append hcode'

theorem yields_lowerDims (dims : List Node) (h : Ready names f s)
    (hparts : ∀ n ∈ dims, Computes names part n) :
    Yields (lowerDims part dims) f s (Pushes · fun _ M => denoteAll M names dims) := by
  obtain ⟨a, t, code, hrun, hg, hcode⟩ := yields_parts dims h hparts
  exact ⟨a, t, code, (unguided_eq h.notGuided _).trans hrun, hg, hcode⟩

/-- Code for subscripts goes behind the code of a value, and the element takes the place of both. -/
theorem yields_subscripts {x : (V : Type) → Meaning V → V} {code : List Instruction}
    {dims : List Node} (h : Ready names f s) (hparts : ∀ n ∈ dims, Computes names part n)
    (hcode : Pushes code fun V M => [x V M]) {α : Type} {k : Lower α} {R : List Instruction → Prop}
    (hk : ∀ t code', Grows f.block s t code' →
      Pushes (code ++ code') (fun V M => [M.subscript (x V M) (denoteAll M names dims)]) →
      Yields k f t fun rest => R (code ++ (code' ++ rest))) :
    Yields (lowerDims part dims >>= fun _ =>
        if 0 < dims.length then emitPushIndex (.arrayDim dims.length) >>= fun _ => k else k) f s
      fun rest => R (code ++ rest) := by
  refine (yields_lowerDims dims h hparts).bind fun _ t code₁ hg₁ hcode₁ => ?_
  have hboth : Pushes (code ++ code₁) fun V M => x V M :: denoteAll M names dims :=
    hcode.append hcode₁
  refine .ite (fun _ => ?_) fun hnone => ?_
  · refine (yields_emitWith (h.grows hg₁) _ _ _).bind fun _ u code₂ hg₂ hcode₂ => ?_
    obtain ⟨debug, rfl⟩ := hcode₂
    have hindexed := hboth.index (fun V M => length_denoteAll M names dims) debug
    rw [List.append_assoc] at hindexed
    have hrest := hk u _ (hg₁.trans hg₂) hindexed
    simpa only [List.append_assoc] using hrest
  · have hdims : dims = [] := List.eq_nil_of_length_eq_zero (by omega)
    subst hdims
    exact hk t code₁ hg₁ hboth

/-! ## Literals -/

theorem yields_push {x : Operand} (hx : ∀ r, x ≠ .register r) (h : Ready names f s) (span : Span) :
    Yields (emitPush x 0 span) f s (Pushes · fun _ M => [M.operand x]) := by
  refine (yields_emitPush h x 0 span).mono ?_
  rintro code ⟨k, debug, rfl⟩
  exact Pushes.nil.push (fun _ _ => rfl) hx k debug

theorem yields_characters (chars : List Char) (h : Ready names f s) (span : Span) :
    Yields (chars.forM fun c => do let _ ← emitPush (.char c) 0 span) f s
      (Pushes · fun _ M => chars.map fun c => M.operand (.char c)) := by
  induction chars generalizing s with
  | nil => exact .pure .nil
  | cons c rest ih =>
    have hone : Yields (do let _ ← emitPush (.char c) 0 span) f s
        (Pushes · fun _ M => [M.operand (.char c)]) := by
      refine (yields_push (fun _ => Operand.noConfusion) h span).bind fun _ _ _ _ hcode => .pure ?_
      rwa [List.append_nil]
    refine Yields.bind hone fun _ t code hg hcode => (ih (h.grows hg)).mono ?_
    intro code' hcode'
    exact hcode.append hcode'

theorem yields_string {n : Nat} {values : Denotation} {code : List Instruction}
    (hlen : isCountable n = true) (hcode : Pushes code values)
    (hn : ∀ V M, (values V M).length = n) (h : Ready names f s) :
    Yields (emitAlloca n true) f s fun code' =>
      Pushes (code ++ code') fun V M => [M.string (values V M)] := by
  unfold emitAlloca
  rw [clamp_of_isCountable hlen]
  refine (yields_emitWith h _ _ _).mono ?_
  rintro code' ⟨debug, rfl⟩
  exact hcode.string hn 0 debug

theorem yields_lowerString {source : String} (hlen : isCountable source.toList.length = true)
    (h : Ready names f s) (span : Span) :
    Yields (lowerString source span) f s
      (Pushes · fun _ M => [M.string (source.toList.map fun c => M.operand (.char c))]) := by
  unfold lowerString
  refine (yields_characters source.toList h span).bind fun _ t code hg hcode => ?_
  refine (yields_string hlen hcode (fun _ _ => List.length_map _) (h.grows hg)).bind ?_
  intro _ u code' _ hcode'
  refine .pure ?_
  rwa [List.append_nil]

theorem run_literalOperand {kind : LiteralKind} (hkind : kind ≠ .string) (source : String)
    (span : Span) :
    ∃ t, literalOperand kind source span f s = .ok (constant kind source) t ∧
      Grows f.block s t [] := by
  obtain ⟨r, hr, hoperand⟩ := readLiteral?_eq hkind source
  unfold literalOperand
  rw [hr, ← hoperand]
  dsimp only
  cases r.fault with
  | none => exact ⟨s, rfl, .refl _ _⟩
  | some fault => exact ⟨_, rfl, grows_report _ _ _⟩

theorem yields_lowerLiteral {kind : LiteralKind} {source : String}
    (hlen : kind = .string → isCountable source.toList.length = true) (h : Ready names f s)
    (span : Span) (expected : Ty) :
    Yields (lowerLiteral kind source span expected) f s
      (Pushes · fun _ M => [denoteLiteral M kind source]) := by
  have hscalar (hkind : kind ≠ .string) {α : Type} (a : α) :
      Yields (do
          let operand ← literalOperand kind source span
          let _ ← emitPush operand 0 span
          return a) f s (Pushes · fun _ M => [M.operand (constant kind source)]) := by
    obtain ⟨t, hrun, hg⟩ := run_literalOperand (f := f) (s := s) hkind source span
    refine .silent hrun hg ?_
    refine (yields_push (constant_ne_register kind source) (h.grows hg) span).bind
      fun _ _ code _ hcode => .pure ?_
    rwa [List.append_nil]
  unfold lowerLiteral
  refine .silent (run_getSession f s) (.refl _ _) ?_
  refine .silent (run_guidesWanted h) (.refl _ _) (.ite (fun hon => by cases hon) fun _ => ?_)
  cases kind with
  | string =>
    refine (yields_lowerString (hlen rfl) h span).bind fun _ _ code _ hcode => .pure ?_
    rwa [List.append_nil]
  | int => exact hscalar (by decide) _
  | double => exact hscalar (by decide) _
  | bool => exact hscalar (by decide) _
  | char => exact hscalar (by decide) _
  | null => exact hscalar (by decide) _

/-! ## Variables -/

theorem ofSymbol_ne_register (x : Symbol) (r : Register) : Operand.ofSymbol x ≠ .register r := by
  unfold Operand.ofSymbol
  split
  · split <;> exact Operand.noConfusion
  · exact Operand.noConfusion

theorem run_recordSplitDims (literals : List Segment) (written : Bool) :
    ∃ t, recordSplitDims literals written f s = .ok () t ∧ Grows f.block s t [] := by
  unfold recordSplitDims
  simp only [run_bind, run_getSession, run_ite, run_modify]
  split
  · exact ⟨_, rfl, grows_nil rfl rfl⟩
  · exact ⟨_, rfl, .refl _ _⟩

theorem run_recordRead (h : Ready names f s) (path : Path) (viaCall : Bool) :
    ∃ t, recordRead path viaCall f s = .ok () t ∧ Grows f.block s t [] := by
  refine ⟨_, recordRead_eq_ok.mpr ⟨h.notSealed, rfl⟩, ?_⟩
  split
  · exact grows_nil rfl rfl
  · exact .refl _ _

/-- A variable that stands alone is pushed behind its subscripts. -/
theorem run_lowerSymbol {ident : Identifier} {r : SymbolRef} {x : Symbol} (h : Ready names f s)
    (hx : s.session.symbol? r = some x) (hparts : ∀ n ∈ ident.dims, Computes names part n) :
    ∃ c t code, lowerSymbol part ident (.start true) r f s = .ok c t ∧ c.depth = 1 ∧
      Grows f.block s t code ∧
      Pushes code fun _ M => [M.subscript (M.operand (.ofSymbol x)) (denoteAll M names ident.dims)] := by
  have hanchor : (if x.isStatic then none else (Cursor.start true).anchor) = none := by
    split <;> rfl
  obtain ⟨_, t, dims, hdims, hg, hpush⟩ := yields_lowerDims ident.dims h hparts
  obtain ⟨u, hsplit, hg'⟩ := run_recordSplitDims (f := f) (s := t)
    (literalDims f.dialect ident.dims) false
  obtain ⟨_, w, code, hemit, hg'', k, debug, rfl⟩ :=
    yields_emitPush ((h.grows hg).grows hg') (.ofSymbol x) ident.dims.length ident.span
  have hsingle : (Cursor.start true).isSingle = true := rfl
  have hrun : ∃ c, lowerSymbol part ident (.start true) r f s = .ok c w ∧ c.depth = 1 := by
    unfold lowerSymbol
    simp only [run_bind, run_getSymbol, hx, hanchor, hdims, run_read, hsplit, hsingle, if_true, hemit]
    exact ⟨_, rfl, rfl⟩
  obtain ⟨c, hrun, hdepth⟩ := hrun
  refine ⟨c, w, _, hrun, hdepth, (hg.trans hg').trans hg'', ?_⟩
  · rw [List.append_nil]
    exact hpush.push (fun _ M => length_denoteAll M names ident.dims) (ofSymbol_ne_register x) k debug

/-- A name that stands alone and can be read is a chain of one segment. -/
theorem yields_identifier {ident : Identifier} (h : Ready names f s)
    (hp : isPlain names (.identifier ident) = true)
    (hparts : ∀ n ∈ ident.dims, Computes names part n) (span : Span) :
    Yields (lowerChain part [.identifier ident] span) f s
      (Pushes · fun _ M => [denote M names (.identifier ident)]) := by
  obtain ⟨v, hv, rfl⟩ := h.sees
  have hsession : v.session = s.session := by
    rw [(sight_eq_ok.mp hv).2.1]
  obtain ⟨x, hname⟩ : ∃ x, v.operand? ident.name = some x := by
    obtain ⟨name, dims, guides, span'⟩ := ident
    simp only [isPlain, isPlainIdentifier, Bool.and_eq_true] at hp
    exact Option.isSome_iff_exists.mp hp.1
  obtain ⟨hthis, r, symbol, htarget, hsymbol, hx⟩ := Sight.operand?_eq_some hname
  rw [hsession] at hsymbol
  obtain ⟨c, t, code, hrun, hdepth, hg, hcode⟩ := run_lowerSymbol h hsymbol hparts
  obtain ⟨u, hread, hg'⟩ := run_recordRead (h.grows hg) c.path c.hasCall
  have hident : lowerIdentifier part ident (.start true) f s = .ok c t := by
    have htarget' : v.segmentTarget ident.name (.start true) = .symbol r := htarget
    have hthis' : ident.isThis = false := hthis
    unfold lowerIdentifier
    simp only [run_ite, run_bind, hv, htarget', hthis', Bool.false_and, Bool.false_eq_true, if_false]
    exact hrun
  have hsegments : lowerSegments part true [.identifier ident] (.start true) f s = .ok c t := by
    have hnotStopped : (Cursor.start true).isStopped = false := rfl
    simp only [lowerSegments, lowerSegment, hnotStopped, run_bind, run_ite, hident,
      Bool.false_eq_true, if_false, run_pure]
  have hvalue : Pushes code fun _ M => [denote M v.operand? (.identifier ident)] := by
    obtain ⟨name, dims, guides, span'⟩ := ident
    have hgetD : (v.operand? name).getD .null = .ofSymbol symbol := by
      rw [hname, Option.getD_some, hx]
    simp only [denote, denoteIdentifier, hgetD]
    exact hcode
  unfold lowerChain
  refine .ite (fun hempty => by cases hempty) fun _ => ?_
  refine .silent (run_guidesWanted h) (.refl _ _) (.ite (fun hon => by cases hon) fun _ => ?_)
  refine .step hsegments hg (.ite (fun hmany => by omega) fun _ => ?_)
  refine .step hread hg' (.pure ?_)
  rwa [List.append_nil, List.append_nil]

/-! ## Lists, ranges, operators and groups -/

theorem isPlain_literal {kind : LiteralKind} {source : String} {span : Span}
    (hp : isPlain names (.literal kind source span) = true) :
    kind = .string → isCountable source.toList.length = true := by
  rintro rfl
  exact hp

theorem yields_lowerItems {items : List Node} (common : Option Ty) (h : Ready names f s)
    (hp : ∀ n ∈ items, isPlain names n = true) (hparts : ∀ n ∈ items, Computes names part n) :
    Yields (lowerItems part common items) f s (Pushes · fun _ M => denoteAll M names items) := by
  induction items generalizing common s with
  | nil => exact .pure .nil
  | cons item rest ih =>
    have hrest (common : Option Ty) {t : State} {code : List Instruction}
        (hg : Grows f.block s t code) (hcode : Pushes code fun _ M => [denote M names item]) :
        Yields (lowerItems part common rest) f t fun code' =>
          Pushes (code ++ code') fun _ M => denoteAll M names (item :: rest) := by
      refine (ih common (h.grows hg) (fun n hn => hp n (List.mem_cons_of_mem item hn))
        fun n hn => hparts n (List.mem_cons_of_mem item hn)).mono ?_
      intro code' hcode'
      exact hcode.append hcode'
    unfold lowerItems
    split
    · next kind source span =>
      have hlen := isPlain_literal (hp _ (List.mem_cons_self ..))
      refine (yields_lowerLiteral hlen h span _).bind fun _ t code hg hcode => hrest _ hg ?_
      simpa only [denote] using hcode
    · refine (hparts item (List.mem_cons_self ..) f s h).bind fun _ t code hg hcode => ?_
      exact hrest _ hg hcode

theorem yields_array {n : Nat} {values : Denotation} {code : List Instruction}
    (hlen : isCountable n = true) (hcode : Pushes code values)
    (hn : ∀ V M, (values V M).length = n) (h : Ready names f s) :
    Yields (emitAlloca n false) f s fun code' =>
      Pushes (code ++ code') fun V M => [M.array (values V M)] := by
  unfold emitAlloca
  rw [clamp_of_isCountable hlen]
  refine (yields_emitWith h _ _ _).mono ?_
  rintro code' ⟨debug, rfl⟩
  exact hcode.array hn 0 debug

theorem yields_lowerList {items dims : List Node} (h : Ready names f s)
    (hlen : isCountable items.length = true) (hp : ∀ n ∈ items, isPlain names n = true)
    (hparts : ∀ n ∈ items ++ dims, Computes names part n) (guides : List Guide) :
    Yields (lowerList part items dims guides) f s
      (Pushes · fun _ M =>
        [M.subscript (M.array (denoteAll M names items)) (denoteAll M names dims)]) := by
  obtain ⟨common, t, code, hrun, hg, hcode⟩ := yields_lowerItems none h hp
    fun n hn => hparts n (List.mem_append_left dims hn)
  have hrun' : unguided (lowerItems part none items) f s = .ok common t :=
    (unguided_eq h.notGuided _).trans hrun
  unfold lowerList
  refine .step hrun' hg ?_
  have ht := h.grows hg
  refine (yields_array hlen hcode (fun _ M => length_denoteAll M names items) ht).bind ?_
  intro _ u code' hg' harray
  have hu := ht.grows hg'
  simp only [← List.append_assoc]
  refine yields_subscripts hu (fun n hn => hparts n (List.mem_append_right items hn)) harray
    (R := (Pushes · _)) fun w code'' hg'' hcode'' => ?_
  refine .silent (run_guidesWanted (hu.grows hg'')) (.refl _ _)
    (.ite (fun hon => by cases hon) fun _ => .pure ?_)
  rwa [List.append_nil]

theorem yields_lowerRange {first last : Node} {step : Option Node} (h : Ready names f s)
    (hfirst : Computes names part first) (hlast : Computes names part last)
    (hstep : ∀ n, step = some n → Computes names part n) (span : Span) :
    Yields (lowerRange part first last step span) f s
      (Pushes · fun _ M =>
        [M.range (denote M names first) (denote M names last) (denoteStep M names step)]) := by
  unfold lowerRange
  refine (hfirst f s h).bind fun _ t code₁ hg₁ hcode₁ => ?_
  have ht := h.grows hg₁
  refine (hlast f t ht).bind fun _ u code₂ hg₂ hcode₂ => ?_
  have hu := ht.grows hg₂
  have hends : Pushes (code₁ ++ code₂) fun _ M => [denote M names first, denote M names last] :=
    hcode₁.append hcode₂
  have hrange {w : State} {code₃ : List Instruction} (hg₃ : Grows f.block u w code₃)
      (hcode₃ : Pushes code₃ fun _ M => [denoteStep M names step]) {α : Type} (a : α) :
      Yields (do
          let _ ← emit (.bare .range) span
          return a) f w fun rest =>
        Pushes (code₁ ++ (code₂ ++ (code₃ ++ rest))) fun _ M =>
          [M.range (denote M names first) (denote M names last) (denoteStep M names step)] := by
    refine (yields_emit (hu.grows hg₃) _ span).bind fun _ _ code₄ _ hcode₄ => .pure ?_
    obtain ⟨debug, rfl⟩ := hcode₄
    have hthree := (hends.append hcode₃).range debug
    simpa only [List.append_assoc, List.append_nil] using hthree
  cases step with
  | some step =>
    refine (hstep step rfl f u hu).bind fun _ w code₃ hg₃ hcode₃ => ?_
    exact hrange hg₃ hcode₃ _
  | none =>
    refine (yields_push (fun _ => Operand.noConfusion) hu span).bind fun _ w code₃ hg₃ hcode₃ => ?_
    exact hrange hg₃ hcode₃ _

theorem yields_lowerUnary {operand : Node} (h : Ready names f s)
    (hoperand : Computes names part operand) (op : UnaryOperator) (span : Span) :
    Yields (lowerUnary part op operand span) f s
      (Pushes · fun _ M => [M.unary op (denote M names operand)]) := by
  unfold lowerUnary emitPop
  refine (hoperand f s h).bind fun _ t code₁ hg₁ hcode₁ => ?_
  have ht := h.grows hg₁
  refine .silent (run_classScope f t) (.refl _ _) ?_
  refine (yields_emit ht _ span).bind fun _ u code₂ hg₂ hcode₂ => ?_
  have hu := ht.grows hg₂
  refine (yields_emit hu _ span).bind fun _ v code₃ hg₃ hcode₃ => ?_
  have hv := hu.grows hg₃
  refine (yields_emitPush hv _ 0 span).bind fun _ _ code₄ _ hcode₄ => .pure ?_
  obtain ⟨debug₂, rfl⟩ := hcode₂
  obtain ⟨debug₃, rfl⟩ := hcode₃
  obtain ⟨k, debug₄, rfl⟩ := hcode₄
  exact hcode₁.unary op (.cls f.scope.classScope) k debug₂ debug₃ debug₄

theorem yields_lowerBinary {left right : Node} {op : Operator} (h : Ready names f s)
    (hleft : Computes names part left) (hright : Computes names part right) (hop : op ≠ .dot)
    (span : Span) :
    Yields (lowerBinary part left op right span) f s
      (Pushes · fun _ M => [M.binary op (denote M names left) (denote M names right)]) := by
  unfold lowerBinary emitPop
  cases hopcode : OpCode.ofBinary? op with
  | none =>
    have hdot : op = .dot := by
      cases op <;> first | rfl | cases hopcode
    exact absurd hdot hop
  | some opcode =>
    refine (hleft f s h).bind fun _ t code₁ hg₁ hcode₁ => ?_
    have ht := h.grows hg₁
    refine (hright f t ht).bind fun _ u code₂ hg₂ hcode₂ => ?_
    have hu := ht.grows hg₂
    refine .silent (run_classScope f u) (.refl _ _) ?_
    refine (yields_emit hu _ span).bind fun _ v code₃ hg₃ hcode₃ => ?_
    have hv := hu.grows hg₃
    refine (yields_emit hv _ span).bind fun _ w code₄ hg₄ hcode₄ => ?_
    have hw := hv.grows hg₄
    refine (yields_emit hw _ span).bind fun _ y code₅ hg₅ hcode₅ => ?_
    refine (yields_emitPush (hw.grows hg₅) _ 0 span).bind fun _ _ code₆ _ hcode₆ => .pure ?_
    obtain ⟨debug₃, rfl⟩ := hcode₃
    obtain ⟨debug₄, rfl⟩ := hcode₄
    obtain ⟨debug₅, rfl⟩ := hcode₅
    obtain ⟨k, debug₆, rfl⟩ := hcode₆
    have hboth := (hcode₁.append hcode₂).binary hopcode (.cls f.scope.classScope) k debug₃ debug₄
      debug₅ debug₆
    rw [List.append_assoc] at hboth
    exact hboth

theorem yields_lowerGroup {inner : Node} {dims : List Node} {guides : List Guide}
    (h : Ready names f s) (hp : isPlain names inner = true)
    (hmoved : isMovable inner dims = true → Computes names part (inner.ungroup dims guides))
    (hinner : Computes names part inner) (hdims : ∀ n ∈ dims, Computes names part n) :
    Yields (lowerGroup part inner dims guides) f s
      (Pushes · fun _ M => [M.subscript (denote M names inner) (denoteAll M names dims)]) := by
  unfold lowerGroup
  refine .ite (fun hm => ?_) fun _ => ?_
  · refine (hmoved hm f s h).mono fun code hcode => ?_
    have hsame {V : Type} (M : Meaning V) := denote_ungroup M hm hp guides guides .nil
    simp only [hsame, denote] at hcode
    exact hcode
  · refine (hinner f s h).bind fun _ t code hg hcode => ?_
    refine yields_subscripts (h.grows hg) hdims hcode (R := (Pushes · _))
      fun u code' _ hcode' => .pure ?_
    rwa [List.append_nil]

end

/-! ## All expressions -/

/-- By induction on the weight: subscripts that move onto the inside of a group make a new node, which
is no part of the old one but is lighter. -/
theorem computes_expression {names : Names} {n : Node} (hp : isPlain names n = true) :
    Computes names expression n := by
  induction hw : n.weight using Nat.strongRecOn generalizing n with
  | ind weight ih =>
  subst hw
  have hpart {m : Node} (hm : isPlain names m = true) (hlt : m.weight < n.weight) :
      Computes names expression m := ih m.weight hlt hm rfl
  have hparts {l : List Node} (hl : areAllPlain names l = true) (hlt : Node.weights l < n.weight) :
      ∀ m ∈ l, Computes names expression m := by
    intro m hm
    have := Node.weight_le_weights hm
    exact hpart (isPlain_of_mem names hl hm) (by omega)
  intro f s h
  rw [expression_eq]
  unfold lowerNode
  cases n with
  | identifier ident =>
    obtain ⟨name, dims, guides, span⟩ := ident
    have hdims := hp
    simp only [isPlain, isPlainIdentifier, Bool.and_eq_true] at hdims
    refine yields_identifier h hp (hparts hdims.2 ?_) _
    simp [Node.weight, Identifier.weight]
  | literal kind source span =>
    simp only [denote]
    exact yields_lowerLiteral (isPlain_literal hp) h span _
  | list items dims guides span =>
    simp only [isPlain, Bool.and_eq_true] at hp
    obtain ⟨⟨hlen, hitems⟩, hdims⟩ := hp
    simp only [Node.weight] at hparts
    simp only [denote]
    refine yields_lowerList h hlen (fun m hm => isPlain_of_mem names hitems hm) ?_ guides
    intro m hm
    rcases List.mem_append.mp hm with hm | hm
    · exact hparts hitems (by omega) m hm
    · exact hparts hdims (by omega) m hm
  | range first last step span =>
    simp only [isPlain, Bool.and_eq_true] at hp
    obtain ⟨⟨hfirst, hlast⟩, hstep⟩ := hp
    simp only [Node.weight] at hpart
    simp only [denote]
    refine yields_lowerRange h (hpart hfirst (by omega)) (hpart hlast (by omega)) ?_ span
    rintro m rfl
    exact hpart hstep (by simp only [Node.optWeight]; omega)
  | unary op operand span =>
    simp only [isPlain] at hp
    simp only [denote]
    exact yields_lowerUnary h (hpart hp (by simp only [Node.weight]; omega)) op span
  | binary left op right span =>
    simp only [isPlain, Bool.and_eq_true] at hp
    obtain ⟨⟨hop, hleft⟩, hright⟩ := hp
    simp only [Node.weight] at hpart
    simp only [denote]
    exact yields_lowerBinary h (hpart hleft (by omega)) (hpart hright (by omega))
      (by simpa using hop) span
  | group inner dims guides span =>
    simp only [isPlain, Bool.and_eq_true] at hp
    obtain ⟨hinner, hdims⟩ := hp
    simp only [Node.weight] at hpart hparts
    simp only [denote]
    refine yields_lowerGroup h hinner (fun hm => ?_) (hpart hinner (by omega))
      (hparts hdims (by omega))
    have := Node.weight_ungroup_le inner dims guides
    exact hpart (isPlain_ungroup hm hinner hdims guides) (by omega)
  | _ => simp [isPlain] at hp

/-- Lowering a plain expression outside of arguments finishes, and what it emits pushes the value of
the expression onto any stack, for every meaning of operands, operators and subscripts. -/
theorem expression_pushes {node : Node} {f : Frame} {s : State} {v : Sight}
    (hv : sight f s = .ok v s) (hp : isPlain v.operand? node = true) (hg : f.isGuided = false)
    (hn : f.isTracked = true → s.node.isSealed = false) :
    ∃ ty t code, expression node f s = .ok ty t ∧
      t.session.stream f.block = s.session.stream f.block ++ code.toArray ∧
      ∀ (V : Type) (M : Meaning V) (stack : List V) (ax bx : V), ∃ ax' bx',
        exec M code ⟨stack, ax, bx⟩ = some ⟨denote M v.operand? node :: stack, ax', bx'⟩ := by
  obtain ⟨ty, t, code, hrun, hgrows, hcode⟩ := computes_expression hp f s ⟨hg, hn, v, hv, rfl⟩
  exact ⟨ty, t, code, hrun, hgrows.stream, fun V M stack ax bx => hcode V M ⟨stack, ax, bx⟩⟩

/-- The sum of an element of `x`, whose subscript has to move, and of a negated element of a list. -/
def sampleSum : Node :=
  .binary
    (.group (.identifier (.plain "x" .nil)) [.literal .int "0" .nil] [] .nil) .add
    (.unary .neg
      (.list [.literal .int "7" .nil, .literal .int "1x" .nil] [.literal .int "1" .nil] [] .nil) .nil)
    .nil

/-- The code of `sampleSum` in a session that knows `x` pushes its value. -/
theorem sampleSum_pushes :
    let f : Frame := { block := 0, scope := .global, dialect := .associative }
    let s : State := { session := ((Session.new {}).importSymbol "x" .var "library").2 }
    let v : Sight := ⟨s.session, f, [0]⟩
    ∃ ty t code, expression sampleSum f s = .ok ty t ∧
      t.session.stream 0 = s.session.stream 0 ++ code.toArray ∧
      ∀ (V : Type) (M : Meaning V) (stack : List V) (ax bx : V), ∃ ax' bx',
        exec M code ⟨stack, ax, bx⟩ =
          some ⟨denote M v.operand? sampleSum :: stack, ax', bx'⟩ := by
  intro f s v
  have hv : sight f s = .ok v s := by
    refine sight_eq_ok.mpr ⟨rfl, rfl, ?_, ?_⟩
    · decide +kernel
    · intro body hbody
      cases hbody
  exact expression_pushes hv (by decide +kernel) rfl (by decide +kernel)

end Diglot.Value
