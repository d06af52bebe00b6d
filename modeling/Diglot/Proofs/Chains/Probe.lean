import Diglot.Proofs.Chains.Expression
import Diglot.Proofs.Globals.Forward
import Diglot.Proofs.Split.Expression

/-! # Looking ahead where nothing is left to declare

Looking ahead into an expression declares the names that it comes upon and that the unit assigns later. If
they all stand for something already (`Sight.SettlesAhead`), looking ahead does nothing at all (`Idle.probe`),
as long as it does not halt. Where it halts does not depend on the state (`Finishes`).

Looking ahead into a segment of a chain that is split goes on to what looking ahead into the whole chain goes
on to (`Idle.probe_member`).
-/

set_option autoImplicit false

namespace Diglot

namespace Node

variable {n m : Node}

theorem unwrap_of_isSegment (h : n.isSegment = true) : n.unwrap = n := by
  cases n with
  | identifier => rfl
  | call => rfl
  | _ => cases h

theorem segments_of_isSegment (h : n.isSegment = true) : n.segments = .ok [n] := by
  cases n with
  | identifier => rfl
  | call => rfl
  | _ => cases h

theorem segments_member (hn : n.isSegment = true) (hm : m.isSegment = true) (lastFactor : Bool) (span : Span) :
    (member n m .dot lastFactor span).segments = .ok [n, m] := by
  unfold segments
  rw [if_pos rfl, segments_of_isSegment hn, segments_of_isSegment hm]
  rfl

theorem weight_arguments (n : Node) : weights n.arguments < n.weight := by
  have hpos := n.weight_pos
  cases n with
  | call c =>
    cases c
    simp only [arguments, weight, Call.weight]
    omega
  | _ => simpa [arguments, weights] using hpos

/-- Looking ahead goes on to lighter expressions. -/
theorem weight_lt_of_mem_partsAhead (h : m ∈ n.partsAhead) : m.weight < n.weight := by
  unfold partsAhead at h
  cases n with
  | identifier ident =>
    have hle : m.weight ≤ weights ident.dims := weight_le_weights h
    cases ident
    simp only [weight, Identifier.weight] at hle ⊢
    omega
  | call c => exact Nat.lt_of_le_of_lt (weight_le_weights h) (weight_arguments (call c))
  | member left right op lastFactor span =>
    dsimp only at h
    split at h
    · next segments hsegments =>
      obtain ⟨k, hk, hm⟩ := List.mem_flatMap.mp h
      have hle := weight_le_weights hm
      have harguments := weight_arguments k.unwrap
      have hunwrap := k.weight_unwrap_le
      have hsegment := weight_lt_of_mem_segments hsegments hk
      omega
    · cases h
  | list items dims guides span =>
    simp only [weight]
    obtain h | h := List.mem_append.mp h
    · have hle := weight_le_weights h
      omega
    · have hle := weight_le_weights h
      omega
  | range first last step span =>
    simp only [List.mem_cons, Option.mem_toList] at h
    simp only [weight]
    obtain rfl | rfl | rfl := h
    · omega
    · omega
    · simp only [optWeight]
      omega
  | unary op operand span =>
    obtain rfl := List.mem_singleton.mp h
    simp only [weight]
    omega
  | binary left op right span =>
    simp only [List.mem_cons, List.not_mem_nil, or_false] at h
    simp only [weight]
    obtain rfl | rfl := h <;> omega
  | group inner dims guides span =>
    dsimp only at h
    simp only [weight]
    split at h
    · have hle := weight_ungroup_le inner dims guides
      rw [List.mem_singleton.mp h]
      omega
    · obtain rfl | h := List.mem_cons.mp h
      · omega
      · have hle := weight_le_weights h
        omega
  | _ => cases h

/-- Names that looking ahead comes upon are looked up in the scope. -/
theorem Ahead.mem_roots {name : String} (h : n.Ahead name) : name ∈ n.roots true := by
  induction h with
  | alone _ heq => simp [roots_identifier, heq]
  | @part n m hm _ ih =>
    have hall {l : List Node} (hl : m ∈ l) : name ∈ allRoots l := mem_allRoots.mpr ⟨m, hl, ih⟩
    unfold partsAhead at hm
    cases n with
    | identifier ident =>
      rw [roots_identifier]
      exact List.mem_append_right _ (hall hm)
    | call c =>
      rw [roots_call]
      exact List.mem_append_left _ (hall hm)
    | member left right op lastFactor span =>
      dsimp only at hm
      split at hm
      · next segments hsegments =>
        obtain ⟨k, hk, hm⟩ := List.mem_flatMap.mp hm
        rw [← chainRoots_segments hsegments]
        refine mem_chainRoots_of_mem hk (mem_roots_unwrap ?_)
        cases hunwrap : k.unwrap with
        | call c =>
          rw [hunwrap] at hm
          rw [roots_call]
          exact List.mem_append_left _ (hall hm)
        | _ =>
          rw [hunwrap] at hm
          cases hm
      · cases hm
    | list items dims guides span =>
      rw [roots, List.mem_append]
      exact (List.mem_append.mp hm).imp hall hall
    | range first last step span =>
      simp only [List.mem_cons, Option.mem_toList] at hm
      simp only [roots, List.mem_append]
      obtain rfl | rfl | rfl := hm
      · exact .inl (.inl ih)
      · exact .inl (.inr ih)
      · exact .inr ih
    | unary op operand span =>
      obtain rfl := List.mem_singleton.mp hm
      rwa [roots]
    | binary left op right span =>
      simp only [List.mem_cons, List.not_mem_nil, or_false] at hm
      rw [roots, List.mem_append]
      obtain rfl | rfl := hm
      · exact .inl ih
      · exact .inr ih
    | group inner dims guides span =>
      dsimp only at hm
      rw [roots, List.mem_append]
      split at hm
      · rw [List.mem_singleton.mp hm] at ih
        exact mem_roots_ungroup ih
      · obtain rfl | hm := List.mem_cons.mp hm
        · exact .inl ih
        · exact .inr (hall hm)
    | _ => cases hm

end Node

namespace Lowering

variable {α β : Type} {f : Frame} {s : State}

/-! ## Steps that finish -/

/-- Some run of the step finishes. -/
def Finishes (m : Lower α) : Prop := ∃ f s a t, m f s = .ok a t

namespace Finishes

theorem first {m : Lower α} {k : α → Lower β} (h : Finishes (m >>= k)) : Finishes m := by
  obtain ⟨f, s, b, t, hrun⟩ := h
  obtain ⟨a, u, hm, -⟩ := bind_eq_ok.mp hrun
  exact ⟨f, s, a, u, hm⟩

theorem second {m : Lower α} {k : Lower β} (h : Finishes (m >>= fun _ => k)) : Finishes k := by
  obtain ⟨f, s, b, t, hrun⟩ := h
  obtain ⟨a, u, -, hk⟩ := bind_eq_ok.mp hrun
  exact ⟨f, u, b, t, hk⟩

theorem forM {l : List α} {k : α → Lower Unit} (h : Finishes (l.forM k)) {a : α} (ha : a ∈ l) :
    Finishes (k a) := by
  induction l with
  | nil => cases ha
  | cons b rest ih =>
    obtain rfl | ha := List.mem_cons.mp ha
    · exact first h
    · exact ih (second h) ha

theorem not_halt {issue : Issue} {message : String} {span : Span} :
    ¬ Finishes (halt issue message span : Lower α) := by
  rintro ⟨f, s, a, t, hrun⟩
  cases hrun

theorem not_defect {d : Defect} : ¬ Finishes (defect d : Lower α) := by
  rintro ⟨f, s, a, t, hrun⟩
  cases hrun

end Finishes

/-! ## Steps that do nothing -/

/-- The step finishes and leaves the state as it is. -/
def Idle (f : Frame) (s : State) (m : Lower Unit) : Prop := m f s = .ok () s

/-- The name stands for something, unless the unit assigns it nowhere. -/
def Sight.Settles (v : Sight) (name : String) : Prop :=
  name ∈ v.frame.forward → v.resolve name ≠ .unbound ∨ (v.session.classes.indexOf? name).isSome

/-- Every name that looking ahead into the expression comes upon stands for something, as far as the unit
assigns it. -/
def Sight.SettlesAhead (v : Sight) (n : Node) : Prop := ∀ name, n.Ahead name → v.Settles name

/-- Looking ahead into the expression finishes and finds nothing to declare. -/
structure Sight.NothingAhead (v : Sight) (n : Node) : Prop where
  settles : v.SettlesAhead n
  finishes : ∃ depth, Finishes (probeWithin depth n)

/-- What is made up beside the names of a source leaves nothing to declare. -/
theorem Sight.NothingAhead.beside {a b : Session} {n : Node} (h : (sightFrom f a).NothingAhead n)
    (hab : a.Beside b) (hn : n.LooksUpPlain true) (anchor : Option Nat) :
    (sightFrom { f with anchor } b).NothingAhead n := by
  refine ⟨fun name hname hforward => ?_, h.finishes⟩
  have hclasses : (sightFrom { f with anchor } b).session.classes = (sightFrom f a).session.classes := hab.classes
  rw [resolve_beside hab f anchor (hn name hname.mem_roots), hclasses]
  exact h.settles name hname hforward

namespace Idle

theorem pure : Idle f s (Pure.pure ()) := rfl

theorem bind {m : Lower Unit} {k : Unit → Lower Unit} (hm : Idle f s m) (hk : Idle f s (k ())) :
    Idle f s (m >>= k) := by
  unfold Idle
  rw [run_bind, hm]
  exact hk

theorem ite {c : Prop} [Decidable c] {m n : Lower Unit} (hm : Idle f s m) (hn : Idle f s n) :
    Idle f s (if c then m else n) := by
  split
  · exact hm
  · exact hn

theorem forM {l : List α} {k : α → Lower Unit} (h : ∀ a ∈ l, Idle f s (k a)) : Idle f s (l.forM k) := by
  induction l with
  | nil => exact pure
  | cons a rest ih =>
    exact bind (h a (List.mem_cons_self ..)) (ih fun b hb => h b (List.mem_cons_of_mem a hb))

theorem declareForward (hlooks : f.LooksOut s.session) {name : String}
    (h : (sightFrom f s.session).Settles name) : Idle f s (declareForward name) := by
  unfold Idle Lowering.declareForward
  simp only [run_bind, run_read, run_ite]
  split
  · next hforward =>
    rw [hlooks.run_sight]
    dsimp only
    have hsettled := h (List.contains_iff_mem.mp hforward)
    rw [if_neg]
    · rfl
    · rw [Bool.and_eq_true, decide_eq_true_eq, Option.isNone_iff_eq_none]
      rintro ⟨hunbound, hnone⟩
      obtain hbound | hcls := hsettled
      · exact hbound hunbound
      · rw [hnone] at hcls
        cases hcls
  · rfl

section
variable {part₀ part : ProbePart} {n : Node}
  (hpart : ∀ m ∈ n.partsAhead, Finishes (part₀ m) → Idle f s (part m))
include hpart

theorem probeChain {segments : List Node} (hsegments : n.segments = .ok segments) (hmember : 2 ≤ segments.length)
    (hahead : n.partsAhead = segments.flatMap fun m => m.unwrap.arguments)
    (hok : Finishes (probeChain part₀ segments)) : Idle f s (probeChain part segments) := by
  have hne : ¬ segments.isEmpty = true := by
    cases segments with
    | nil => cases hmember
    | cons => simp
  have hsingle : (segments.length == 1) = false := by simp; omega
  unfold Lowering.probeChain at hok ⊢
  rw [if_neg hne, hsingle] at hok ⊢
  refine forM fun m hm => ?_
  have hokm := hok.forM hm
  obtain ⟨k, hk, rfl⟩ := List.mem_map.mp hm
  cases hunwrap : k.unwrap with
  | call c =>
    rw [hunwrap] at hokm
    refine forM fun a ha => hpart a ?_ (hokm.forM ha)
    rw [hahead]
    refine List.mem_flatMap.mpr ⟨k, hk, ?_⟩
    rw [hunwrap]
    exact ha
  | _ => exact pure

theorem probeNode (hlooks : f.LooksOut s.session)
    (halone : ∀ i, n = .identifier i → i.isThis = false → (sightFrom f s.session).Settles i.name)
    (hok : Finishes (probeNode part₀ n)) : Idle f s (probeNode part n) := by
  cases n with
  | identifier ident =>
    have hdims : Finishes (ident.dims.forM part₀) := hok.first.first
    refine bind (bind (forM fun m hm => hpart m hm (hdims.forM hm)) ?_) pure
    cases hthis : ident.isThis with
    | true => exact pure
    | false => exact declareForward hlooks (halone ident rfl hthis)
  | call c =>
    have hargs : Finishes (c.args.forM part₀) := hok.first
    exact bind (forM fun m hm => hpart m hm (hargs.forM hm)) pure
  | member left right op lastFactor span =>
    unfold Lowering.probeNode chainSegments at hok ⊢
    cases hsegments : (Node.member left right op lastFactor span).segments with
    | error e =>
      rw [hsegments] at hok
      exact absurd hok.first Finishes.not_halt
    | ok segments =>
      rw [hsegments] at hok
      refine probeChain hpart hsegments (Node.length_segments_member hsegments) ?_ hok
      unfold Node.partsAhead
      dsimp only
      rw [hsegments]
  | list items dims guides span => exact forM fun m hm => hpart m hm (hok.forM hm)
  | range first last step span =>
    have hstep := (hok.second).second
    refine bind (hpart first (by simp [Node.partsAhead]) hok.first) ?_
    refine bind (hpart last (by simp [Node.partsAhead]) hok.second.first) ?_
    exact forM fun m hm => hpart m (by simp_all [Node.partsAhead]) (hstep.forM hm)
  | unary op operand span => exact hpart operand (by simp [Node.partsAhead]) hok
  | binary left op right span =>
    unfold Lowering.probeNode at hok ⊢
    dsimp only at hok ⊢
    split at hok
    · exact absurd hok Finishes.not_halt
    · refine bind (hpart left (by simp [Node.partsAhead]) hok.first) ?_
      exact hpart right (by simp [Node.partsAhead]) hok.second
  | group inner dims guides span =>
    unfold Lowering.probeNode at hok ⊢
    unfold Node.partsAhead at hpart
    dsimp only at hok hpart ⊢
    split at hok
    · next hmovable =>
      rw [if_pos hmovable] at hpart ⊢
      exact hpart _ (by simp) hok
    · next hmovable =>
      rw [if_neg hmovable] at hpart ⊢
      exact bind (hpart inner (by simp) hok.first) (forM fun m hm => hpart m (by simp [hm]) (hok.second.forM hm))
  | literal => exact pure
  | defaultArg => exact pure
  | dynamic => exact pure
  | _ => exact absurd hok Finishes.not_halt

end

/-- Looking ahead into an expression does nothing where it finds nothing to declare. -/
theorem probeWithin (hlooks : f.LooksOut s.session) {n : Node} (h : (sightFrom f s.session).NothingAhead n)
    {bound : Nat} (hn : n.weight ≤ bound) : Idle f s (probeWithin bound n) := by
  obtain ⟨h, depth, hok⟩ := h
  induction bound generalizing n depth with
  | zero => exact absurd n.weight_pos (by omega)
  | succ bound ih =>
    cases depth with
    | zero => exact absurd hok Finishes.not_defect
    | succ depth =>
      refine probeNode (fun m hm hokm => ?_) hlooks (fun i hi hthis => ?_) hok
      · have hlt := Node.weight_lt_of_mem_partsAhead hm
        exact ih (by omega) (fun name hname => h name (.part hm hname)) depth hokm
      · subst hi
        exact h i.name (.alone hthis rfl)

theorem probe (hlooks : f.LooksOut s.session) {n : Node} (h : (sightFrom f s.session).NothingAhead n) :
    Idle f s (probe n) := probeWithin hlooks h (Nat.le_refl _)

/-- Looking ahead into a chain of two segments goes on to the arguments of both. -/
theorem probe_member (hlooks : f.LooksOut s.session) {left right : Node} (hleft : left.isSegment = true)
    (hright : right.isSegment = true)
    (h : ∀ a ∈ left.arguments ++ right.arguments, (sightFrom f s.session).NothingAhead a) (lastFactor : Bool)
    (span : Span) : Idle f s (Lowering.probe (.member left right .dot lastFactor span)) := by
  have hsegments := Node.segments_member hleft hright lastFactor span
  have hparts : (Node.member left right .dot lastFactor span).partsAhead = left.arguments ++ right.arguments := by
    unfold Node.partsAhead
    dsimp only
    rw [hsegments]
    simp [Node.unwrap_of_isSegment hleft, Node.unwrap_of_isSegment hright]
  unfold Lowering.probe
  obtain ⟨bound, hbound⟩ := Nat.exists_eq_add_one_of_ne_zero
    (Node.weight_pos (.member left right .dot lastFactor span)).ne'
  rw [hbound]
  -- Where the parts do nothing, looking ahead finishes.
  let nothing : ProbePart := fun _ => Pure.pure ()
  have hahead : ∀ m ∈ (Node.member left right .dot lastFactor span).partsAhead, Finishes (nothing m) →
      Idle f s (Lowering.probeWithin bound m) := fun m hm _ => by
    have hlt := Node.weight_lt_of_mem_partsAhead hm
    exact probeWithin hlooks (h m (hparts ▸ hm)) (by omega)
  refine probeNode hahead hlooks nofun ?_
  · refine ⟨f, s, (), s, ?_⟩
    unfold Lowering.probeNode
    dsimp only
    rw [chainSegments_ok hsegments, pure_bind]
    refine forM (k := probeSegment (fun _ => Pure.pure ()) false) fun m hm => ?_
    cases m with
    | call c => exact forM fun _ _ => pure
    | _ => exact pure

end Idle

end Lowering

end Diglot
