import Diglot.Proofs.Chains.Declares

/-! # Code that hands a value on

- `Session.Puts` is code that is put behind that of a block, `Instruction.Stores` and `Loads` are the instructions that
  pop a value into a variable and push it again.
- `Temporary` is a variable that is made up for a split chain.
- `Session.HandsOn` is code that stores and pushes each of the variables of a row once, one after the other
  (`Temporary.isHanded_of_handsOn`).
-/

set_option autoImplicit false

namespace Diglot

open Lowering

/-! ## Code that hands a value on -/

namespace Instruction

/-- The instruction stores the value on top into the variable. -/
def Stores (x : Symbol) (i : Instruction) : Prop :=
  i.IsOf (.ternary .pop (.ofSymbol x) (.cls x.classScope) (.arrayDim 0))

/-- The instruction pushes the value of the variable, alone or as the first segment of a chain. -/
def Loads (x : Symbol) (i : Instruction) : Prop :=
  (∃ cls, i.IsOf (.ternary .push (.ofSymbol x) (.cls cls) (.arrayDim 0))) ∨
    ∃ block, i.IsOf (.ternary .pushm (.ofSymbol x) (.cls x.classScope) (.block block))

variable {x : Symbol} {i j : Instruction}

theorem isOf_of_unmarked (h : j.unmarked = i.unmarked) : j.IsOf i := by
  obtain ⟨op, a, b, c, debug⟩ := i
  obtain ⟨op', a', b', c', debug'⟩ := j
  cases h
  exact ⟨debug', rfl⟩

/-- The instruction addresses no variable. -/
def IsAside (i : Instruction) : Prop := ∀ o ∈ i.operands, o.isVariable = false

theorem Stores.accesses (h : i.Stores x) : i.Accesses x := .store 0 h

theorem Loads.accesses (h : i.Loads x) : i.Accesses x := by
  obtain ⟨cls, h⟩ | ⟨block, h⟩ := h
  · exact .alone cls 0 h
  · exact .segment block h

end Instruction

namespace Session

/-- From `s` to `t` the code was put behind that of the block. -/
def Puts (s : Session) (id : Nat) (code : List Instruction) (t : Session) : Prop :=
  (t.stream id).toList = (s.stream id).toList ++ code

variable {s t u : Session} {id : Nat} {code rest : List Instruction}

theorem Puts.trans (h : s.Puts id code t) (h' : t.Puts id rest u) : s.Puts id (code ++ rest) u := by
  unfold Puts at h h' ⊢
  rw [h', h, List.append_assoc]

theorem CanEmit.congr (h : s.CanEmit id) (hnames : s.SameNames t) : t.CanEmit id := by
  unfold CanEmit at h ⊢
  rwa [hnames.isWatching, hnames.block?_isSome]

theorem puts_of_stream (h : t.stream id = s.stream id) : s.Puts id [] t := by
  unfold Puts
  rw [h, List.append_nil]

end Session

namespace Lowering

variable {α : Type} {f : Frame} {s t u : State} {P : Instruction → Prop} {m : Lower α} {a : α}

theorem Wrote.puts {id : Nat} {a b : Session} (h : Wrote P id a b) (hcan : a.CanEmit id) :
    ∃ code, a.Puts id code b ∧ ∀ i ∈ code, P i := by
  obtain ⟨l, hl, hw⟩ := h
  refine ⟨l.toList, ?_, fun i hi => hl i (Array.mem_toList_iff.mp hi)⟩
  unfold Session.Puts
  rw [Session.stream_writes hw hcan, Array.toList_append]

theorem Passes.puts {code : List Instruction} {warnings : Diagnostics} (h : Passes f s t code warnings) :
    ∃ added, s.session.Puts f.block added t.session ∧ added.map Instruction.unmarked = code := h.code

theorem puts_of_composed (hm : Composed false False P m) (hP : ¬ ∀ i, P i) (hcan : s.session.CanEmit f.block)
    (hrun : m f s = .ok a t) : ∃ code, s.session.Puts f.block code t.session ∧ ∀ i ∈ code, P i := by
  have hwrote := (hm f s nofun).wrote hP
  rw [hrun] at hwrote
  exact hwrote.puts hcan

/-- Steps that emit nothing. -/
theorem puts_of_silent (hm : Composed false False (fun _ => False) m) (hcan : s.session.CanEmit f.block)
    (hrun : m f s = .ok a t) : s.session.Puts f.block [] t.session := by
  obtain ⟨code, hputs, hnone⟩ := puts_of_composed hm (fun h => h default) hcan hrun
  obtain rfl := List.eq_nil_iff_forall_not_mem.mpr hnone
  exact hputs

/-- A store into a variable without subscripts ends with the instruction that stores. -/
theorem puts_emitStore {x : Symbol} {span : Span} {pc : Nat} (hcan : s.session.CanEmit f.block)
    (hrun : emitStore x 0 span f s = .ok pc t) :
    s.session.SameNames t.session ∧ ∃ pushes pop, s.session.Puts f.block (pushes ++ [pop]) t.session ∧
      pop.Stores x ∧ ∀ i ∈ pushes, i.IsAside := by
  obtain ⟨pc', t', hrun', hpasses⟩ := passes_emitStore hcan x span
  cases hrun.symm.trans hrun'
  obtain ⟨added, hputs, hsame⟩ := hpasses.puts
  refine ⟨hpasses.names, ?_⟩
  unfold storeCode at hsame
  obtain ⟨i₁, rest, rfl, h₁, hsame⟩ := List.map_eq_cons_iff.mp hsame
  obtain ⟨i₂, rest, rfl, h₂, hsame⟩ := List.map_eq_cons_iff.mp hsame
  obtain ⟨i₃, rest, rfl, h₃, hsame⟩ := List.map_eq_cons_iff.mp hsame
  obtain ⟨pop, rfl, hpop⟩ := List.map_eq_singleton_iff.mp hsame
  have haside {i : Instruction} {a b : Operand} (hi : i.unmarked = .binary .push a b) (ha : a.isVariable = false)
      (hb : b.isVariable = false) : i.IsAside := by
    intro o ho
    have hoperands : i.operands = [a, b] := congrArg Instruction.operands hi
    rw [hoperands] at ho
    obtain rfl | ho := List.mem_cons.mp ho
    · exact ha
    · rwa [List.mem_singleton.mp ho]
  refine ⟨[i₁, i₂, i₃], pop, hputs, Instruction.isOf_of_unmarked hpop, fun i hi => ?_⟩
  simp only [List.mem_cons, List.not_mem_nil, or_false] at hi
  rcases hi with rfl | rfl | rfl
  · exact haside h₁ rfl rfl
  · exact haside h₂ rfl rfl
  · exact haside h₃ rfl rfl

/-- The end of a statement addresses no variable. -/
theorem puts_emitDepx {pc : Nat} (hcan : s.session.CanEmit f.block) (hrun : emitDepx f s = .ok pc t) :
    s.session.SameNames t.session ∧ ∃ i, s.session.Puts f.block [i] t.session ∧ i.IsAside := by
  obtain ⟨pc', t', hrun', hpasses⟩ := passes_emits (Mild.emits_emitWith (.bare .depx) .nil none) hcan
  cases hrun.symm.trans hrun'
  obtain ⟨added, hputs, hsame⟩ := hpasses.puts
  obtain ⟨i, rfl, hi⟩ := List.map_eq_singleton_iff.mp hsame
  refine ⟨hpasses.names, i, hputs, fun o ho => ?_⟩
  have hoperands : i.operands = [] := congrArg Instruction.operands hi
  rw [hoperands] at ho
  cases ho

/-! ## What a statement gathers, whatever it is -/

/-- Anything may be gathered. -/
def Harvest.any : Harvest := ⟨fun _ => True, fun _ => True, fun _ => True⟩

theorem Harvest.allows_any (dialect : Dialect) (segments : List Node) : Harvest.any.Allows dialect segments :=
  ⟨fun _ _ => trivial, fun _ _ _ _ => trivial⟩

theorem Sight.admits_any (v : Sight) (segments : List Node) : v.Admits Harvest.any segments :=
  ⟨Harvest.allows_any _ _, fun _ _ _ _ => trivial⟩

theorem Enriched.mem {H : Harvest} (h : Enriched H s t) {p : Path} (hp : p ∈ s.node.dependencies) :
    p ∈ t.node.dependencies := by
  obtain ⟨new, -, hinputs⟩ := h.inputs
  rw [hinputs]
  exact List.mem_append_left _ hp

theorem Enriched.isTemporary {H : Harvest} (h : Enriched H s t) : t.node.isTemporary = s.node.isTemporary := by
  have hsame := congrArg GraphNode.isTemporary h.outline
  exact hsame

/-- Between the value and the store nothing is declared or emitted. -/
theorem RecordsChain.quiet {isLast : Bool} (h : RecordsChain isLast f s t) (hcan : s.session.CanEmit f.block) :
    s.session.SameNames t.session ∧ s.session.Puts f.block [] t.session ∧
      (∀ p ∈ s.node.dependencies, p ∈ t.node.dependencies) ∧ t.node.isTemporary = s.node.isTemporary := by
  unfold RecordsChain at h
  split at h
  · have hgathered := recordSplitChain_gathers (H := .any) (fun _ _ _ _ => trivial) h
    refine ⟨?_, puts_of_silent .recordSplitChain hcan h, fun p hp => hgathered.mem hp, hgathered.isTemporary⟩
    exact (Sparing.recordSplitChain (endures_sameNames s.session f.block)).ok (.refl _) h
  · rw [h]
    exact ⟨.refl _, Session.puts_of_stream rfl, fun _ hp => hp, rfl⟩

end Lowering

/-! ## Variables that are made up -/

/-- A variable that is made up for a split chain: its number, where it is declared, and its entry there. -/
structure Temporary where
  number : Nat
  ref : SymbolRef
  symbol : Symbol

namespace Temporary

/-- The variable as a segment of a path. -/
def segment (y : Temporary) : Segment := .ofName (temporaryName y.number) (some y.ref) y.symbol.classScope

/-- The variable is declared, and no other symbol of the session has its name. -/
structure IsOnly (y : Temporary) (s : Session) : Prop where
  symbol : s.symbol? y.ref = some y.symbol
  named : y.symbol.name = temporaryName y.number
  only : ∀ r x, s.symbol? r = some x → x.name = temporaryName y.number → r = y.ref

/-- Declaring variables of other names makes no difference. -/
theorem IsOnly.declares {f : Frame} {P : String → Prop} {y : Temporary} {s t : Session} (h : y.IsOnly s)
    (hst : f.Declares P s t) (hother : ¬ P (temporaryName y.number)) : y.IsOnly t := by
  refine ⟨hst.kept _ _ h.symbol, h.named, fun r x hx hname => ?_⟩
  obtain hold | hnew := hst.fresh r x hx
  · exact h.only r x hold hname
  · exact absurd (hname ▸ hnew) hother

end Temporary

namespace Session

/-- The instruction accesses no variable that is made up from the number `k` on. -/
def Avoids (s : Session) (k : Nat) (i : Instruction) : Prop := Touches s (s.IsOld k) i

theorem avoids_of_isAside {s : Session} {k : Nat} {i : Instruction} (h : i.IsAside) : s.Avoids k i := .inl h

theorem IsOld.kept {s t : Session} {k : Nat} {r : SymbolRef} (h : s.IsOld k r)
    (hkept : ∀ r x, s.symbol? r = some x → t.symbol? r = some x) : t.IsOld k r := by
  obtain ⟨x, hx, hname⟩ := h
  exact ⟨x, hkept r x hx, hname⟩

theorem Avoids.kept {s t : Session} {k : Nat} {i : Instruction} (h : s.Avoids k i)
    (hkept : ∀ r x, s.symbol? r = some x → t.symbol? r = some x) : t.Avoids k i := by
  obtain hnone | ⟨r, x, hr, hx, haccess⟩ := h
  · exact .inl hnone
  · exact .inr ⟨r, x, hr.kept hkept, hkept r x hx, haccess⟩

end Session

/-- Code in which each of the variables is stored and then pushed, one after the other. All other instructions
access none that is made up from the number `k` on. -/
inductive Session.HandsOn (s : Session) (k : Nat) : List Temporary → List Instruction → Prop where
  | done {code : List Instruction} : (∀ i ∈ code, s.Avoids k i) → HandsOn s k [] code
  | next {y : Temporary} {ys : List Temporary} {before between after : List Instruction} {pop push : Instruction} :
      (∀ i ∈ before, s.Avoids k i) → pop.Stores y.symbol → (∀ i ∈ between, s.Avoids k i) → push.Loads y.symbol →
      HandsOn s k ys after → HandsOn s k (y :: ys) (before ++ pop :: between ++ push :: after)

namespace Session.HandsOn

variable {s : Session} {k : Nat} {ys : List Temporary} {code : List Instruction}

/-- Everything in the code that does not avoid the made-up variables accesses one of those that are handed on. -/
theorem accesses (h : s.HandsOn k ys code) :
    ∀ i ∈ code, s.Avoids k i ∨ ∃ y ∈ ys, i.Accesses y.symbol := by
  induction h with
  | done hcode => exact fun i hi => .inl (hcode i hi)
  | @next y ys before between after pop push hbefore hpop hbetween hpush _ ih =>
    intro i hi
    simp only [List.mem_append, List.mem_cons] at hi
    rcases hi with (hi | rfl | hi) | rfl | hi
    · exact .inl (hbefore i hi)
    · exact .inr ⟨y, List.mem_cons_self .., hpop.accesses⟩
    · exact .inl (hbetween i hi)
    · exact .inr ⟨y, List.mem_cons_self .., hpush.accesses⟩
    · refine (ih i hi).imp_right ?_
      rintro ⟨z, hz, haccess⟩
      exact ⟨z, List.mem_cons_of_mem y hz, haccess⟩

end Session.HandsOn

namespace Temporary

/-- The code has one instruction that stores the variable, and one behind it that pushes it; all others address no
variable, or access another one. -/
def IsHanded (y : Temporary) (s : Session) (code : List Instruction) : Prop :=
  ∃ before pop between push after, code = before ++ pop :: between ++ push :: after ∧ pop.Stores y.symbol ∧
    push.Loads y.symbol ∧ ∀ i ∈ before ++ between ++ after, Touches s (fun r => r ≠ y.ref) i

/-- Made-up variables with the numbers of a row. -/
structure InRow (k : Nat) (s : Session) (ys : List Temporary) : Prop where
  increasing : ys.Pairwise fun y z => y.number < z.number
  behind : ∀ y ∈ ys, k ≤ y.number
  isOnly : ∀ y ∈ ys, y.IsOnly s

variable {k : Nat} {s : Session} {y z : Temporary} {ys : List Temporary} {code : List Instruction}

theorem touches_other (hy : y.IsOnly s) (hz : z.IsOnly s) (hne : y.number ≠ z.number) {i : Instruction}
    (h : i.Accesses z.symbol) : Touches s (fun r => r ≠ y.ref) i := by
  refine .inr ⟨z.ref, z.symbol, fun heq => hne ?_, hz.symbol, h⟩
  have hsame : z.symbol = y.symbol := by
    have hsymbol := hz.symbol
    rw [heq, hy.symbol] at hsymbol
    exact (Option.some.inj hsymbol).symm
  exact temporaryName_injective (hy.named.symm.trans (hsame ▸ hz.named))

theorem touches_old (hy : y.IsOnly s) (hk : k ≤ y.number) {i : Instruction} (h : s.Avoids k i) :
    Touches s (fun r => r ≠ y.ref) i := by
  obtain hnone | ⟨r, x, hr, hx, haccess⟩ := h
  · exact .inl hnone
  · obtain ⟨x', hx', hspent⟩ := hr
    refine .inr ⟨r, x, fun heq => ?_, hx, haccess⟩
    subst heq
    rw [hy.symbol] at hx'
    obtain rfl := Option.some.inj hx'
    exact hspent y.number hk hy.named

/-- In code that hands on variables of a row each of them is handed on once. -/
theorem isHanded_of_handsOn (h : s.HandsOn k ys code) (hrow : InRow k s ys) : ∀ y ∈ ys, y.IsHanded s code := by
  induction h with
  | done => exact fun y hy => absurd hy List.not_mem_nil
  | @next z zs before between after pop push hbefore hpop hbetween hpush hafter ih =>
    obtain ⟨hincreasing, hbehind, honly⟩ := hrow
    obtain ⟨hless, hrest⟩ := List.pairwise_cons.mp hincreasing
    have hz := honly z (List.mem_cons_self ..)
    have hrow' : InRow k s zs := ⟨hrest, fun y hy => hbehind y (List.mem_cons_of_mem z hy),
      fun y hy => honly y (List.mem_cons_of_mem z hy)⟩
    intro y hy
    have hold {i : Instruction} (hi : s.Avoids k i) : Touches s (fun r => r ≠ y.ref) i :=
      touches_old (honly y hy) (hbehind y hy) hi
    rcases List.mem_cons.mp hy with rfl | hmem
    · refine ⟨before, pop, between, push, after, rfl, hpop, hpush, fun i hi => ?_⟩
      simp only [List.mem_append] at hi
      rcases hi with (hi | hi) | hi
      · exact hold (hbefore i hi)
      · exact hold (hbetween i hi)
      · obtain hi | ⟨z, hzs, haccess⟩ := hafter.accesses i hi
        · exact hold hi
        · exact touches_other hz (hrow'.isOnly z hzs) (Nat.ne_of_lt (hless z hzs)) haccess
    · obtain ⟨b, pop', c, push', d, rfl, hpop', hpush', hothers⟩ := ih hrow' y hmem
      have hne : y.number ≠ z.number := (Nat.ne_of_lt (hless y hmem)).symm
      refine ⟨before ++ pop :: between ++ push :: b, pop', c, push', d, by simp, hpop', hpush', fun i hi => ?_⟩
      have hother {i : Instruction} (hi : i.Accesses z.symbol) := touches_other (honly y hy) hz hne hi
      simp only [List.mem_append, List.mem_cons] at hi hothers
      rcases hi with (((hi | rfl | hi) | rfl | hi) | hi) | hi
      · exact hold (hbefore i hi)
      · exact hother hpop.accesses
      · exact hold (hbetween i hi)
      · exact hother hpush.accesses
      · exact hothers i (.inl (.inl hi))
      · exact hothers i (.inl (.inr hi))
      · exact hothers i (.inr hi)

end Temporary

/-- The node has an input whose root is the variable that was handed on, if there is one. -/
def GraphNode.ReadsFrom (source : Option Temporary) (n : GraphNode) : Prop :=
  ∀ y ∈ source, ∃ p ∈ n.dependencies, p.head? = some y.segment

/-- The node is one of a split chain, and writes the made-up variable alone. -/
def GraphNode.WritesOnly (y : Temporary) (n : GraphNode) : Prop := n.isTemporary = true ∧ n.updated = some [y.segment]

/-- The identifiers in the expression are no made-up names. -/
def Node.IsNamedPlain (n : Node) : Prop :=
  ∀ segments, n.HasChain segments → ∀ ident, Node.identifier ident ∈ segments.map Node.unwrap → IsPlainName ident.name

end Diglot
