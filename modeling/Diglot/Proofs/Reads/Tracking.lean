import Diglot.Proofs.Mild.Expression

/-! # Dependencies of chains

`Sight.readBy? node` is the symbol that a chain begins at: the one that its first name is resolved to,
also if that is a member which may not be used. What lowering finds at the root of a chain is this symbol
(`segmentSymbol?_root`), and nothing that is lowered in between changes it (`segmentTarget_congr`).

While the value of a statement is lowered, the node of the statement gets a dependency for each chain.

* `Gains v x s t`: between `s` and `t` the node got the symbols at which those expressions begin that
  were remembered in the meantime (`State.pointers`), and the symbol `x`, if reads are recorded at all.
* `Tracks v x m Q`: a run of `m` that ends well gains so, and `Q` holds of what it returns.
* `Cursor.After` and `Cursor.Rooted`: what one segment, and all segments so far, do to the path of a
  chain. Its first segment stays the first one, so that the chain is recorded under the symbol that it
  begins at (`Tracks.lowerChain`).
-/

set_option autoImplicit false

namespace Diglot

open Lowering

/-! ## Where chains begin -/

def Path.rootSymbol? (p : Path) : Option SymbolRef := p.head?.bind Segment.symbol

/-- Some input of the statement begins at the symbol. -/
def GraphNode.Reads (n : GraphNode) (r : SymbolRef) : Prop :=
  ∃ p ∈ n.dependencies, p.rootSymbol? = some r

/-- The first segment of a chain, without parentheses. -/
def Node.rootSegment? (node : Node) : Option Node :=
  match node with
  | .identifier _ | .call _ | .member .. =>
    match node.segments with
    | .ok (first :: _) => some first.unwrap
    | _ => none
  | _ => none

namespace Lowering.Sight

/-- The symbol that a name at the root of a chain stands for, also if it is a member that may not be
used. -/
def rootSymbol? (v : Sight) (name : String) : Option SymbolRef :=
  match v.rootTarget name, v.resolve name with
  | .symbol r, _ => some r
  | .inaccessible, .inaccessible r => some r
  | _, _ => none

/-- The symbol that the first segment of a chain stands for, if it is the name of one. -/
def rootOf? (v : Sight) (segment : Node) : Option SymbolRef :=
  segment.asIdentifier?.bind fun ident => if ident.isThis then none else v.rootSymbol? ident.name

/-- The symbol that a chain begins at. -/
def readBy? (v : Sight) (node : Node) : Option SymbolRef := node.rootSegment?.bind v.rootOf?

end Lowering.Sight

/-! ## Members that may not be used -/

theorem ClassTable.searchMember_inaccessible (t : ClassTable) {context : Option Nat} {name : String}
    {hidden : Option MemberRef} {owners : List Nat} {m : MemberRef}
    (h : t.searchMember context (declaredSymbol name) hidden owners = .inaccessible m) :
    hidden = some m ∨ hidden = none ∧ (owners.findSome? fun owner =>
      ((t.get? owner).bind (declaredSymbol name)).map fun d => (⟨owner, d.1⟩ : MemberRef)) = some m := by
  induction owners generalizing hidden with
  | nil =>
    cases hidden with
    | none => cases h
    | some n =>
      cases h
      exact .inl rfl
  | cons owner rest ih =>
    rw [List.findSome?_cons]
    cases hd : (t.get? owner).bind (declaredSymbol name) with
    | none =>
      simp only [searchMember, hd] at h
      exact ih h
    | some d =>
      obtain ⟨index, access⟩ := d
      simp only [searchMember, hd] at h
      split at h
      · cases h
      · cases hidden with
        | none =>
          obtain hsome | ⟨hnone, -⟩ := ih h
          · exact .inr ⟨rfl, hsome⟩
          · cases hnone
        | some n =>
          obtain hsome | ⟨hnone, -⟩ := ih h
          · exact .inl hsome
          · cases hnone

/-- The member that is told to be hidden is the nearest one of its name. -/
theorem ClassTable.anyMember?_of_inaccessible (t : ClassTable) {cls : Nat} {name : String}
    {context : Option Nat} {m : MemberRef} (h : t.lookupMember cls name context = .inaccessible m) :
    t.anyMember? cls name = some m := by
  obtain hsome | ⟨-, hfound⟩ := t.searchMember_inaccessible h
  · cases hsome
  · exact hfound

namespace Lowering.Sight

variable {v : Sight}

theorem inScope_inaccessible {name : String} {r : SymbolRef} (h : v.inScope name = .inaccessible r) :
    ∃ cls m, v.frame.scope.classScope = some cls ∧ r = ⟨.cls m.owner, m.index⟩ ∧
      v.session.classes.anyMember? cls name = some m := by
  have hblocks : v.inBlocks name ≠ .inaccessible r := by
    unfold inBlocks
    split
    · exact Resolution.noConfusion
    · split <;> exact Resolution.noConfusion
  unfold inScope at h
  split at h
  · exact absurd h hblocks
  · next cls hcls =>
    split at h
    · exact absurd h hblocks
    · unfold inClass at h
      split at h
      · cases h
      · next m hm =>
        cases h
        exact ⟨cls, m, hcls, rfl, v.session.classes.anyMember?_of_inaccessible hm⟩
      · split at h <;> cases h

theorem resolve_inaccessible {name : String} {r : SymbolRef} (h : v.resolve name = .inaccessible r) :
    ∃ cls m, v.frame.scope.classScope = some cls ∧ r = ⟨.cls m.owner, m.index⟩ ∧
      v.session.classes.anyMember? cls name = some m := by
  unfold resolve at h
  split at h
  · cases h
  · split at h
    · cases h
    · split at h
      · cases h
      · exact inScope_inaccessible h

theorem rootTarget_inaccessible {name : String} (h : v.rootTarget name = .inaccessible) :
    ∃ r, v.resolve name = .inaccessible r := by
  unfold rootTarget at h
  dsimp only at h
  split at h
  · split at h <;> cases h
  · split at h
    · cases h
    · next r hr => exact ⟨r, hr⟩
    · split at h <;> cases h

/-- The symbol that an identifier in a chain stands for. -/
def segmentSymbol? (v : Sight) (ident : Identifier) (c : Cursor) : Option SymbolRef :=
  if ident.isThis && c.depth == 0 then none
  else
    match v.segmentTarget ident.name c with
    | .symbol r => some r
    | .inaccessible => (v.hiddenMember? ident.name c).bind Segment.symbol
    | _ => none

/-- At the root of a chain a name stands for what it is resolved to, and what a dependency shows of a
member that may not be used is that member. -/
theorem segmentSymbol?_root (ident : Identifier) {c : Cursor} (hc : c.depth = 0) :
    v.segmentSymbol? ident c = v.rootOf? (.identifier ident) := by
  have htarget : v.segmentTarget ident.name c = v.rootTarget ident.name := by simp [segmentTarget, hc]
  simp only [segmentSymbol?, rootOf?, Node.asIdentifier?, Option.bind_some, hc, beq_self_eq_true,
    Bool.and_true, htarget]
  split
  · rfl
  · unfold rootSymbol?
    cases hroot : v.rootTarget ident.name with
    | symbol r => rfl
    | inaccessible =>
      obtain ⟨r, hr⟩ := rootTarget_inaccessible hroot
      obtain ⟨cls, m, hcls, rfl, hmember⟩ := resolve_inaccessible hr
      simp [hiddenMember?, hc, hcls, hmember, hr, Segment.ofName]
    | cls id => rfl
    | arrayReceiver => rfl
    | unbound => rfl

/-! ## Looking names up in the course of an expression -/

section
variable {s : Session} (h : v.session.SameNames s) (b : Bool)
include h

theorem rootTarget_congr (name : String) :
    rootTarget ⟨s, { v.frame with isGuided := b }, v.blocks⟩ name = v.rootTarget name := by
  have hresolve : resolve ⟨s, { v.frame with isGuided := b }, v.blocks⟩ name = v.resolve name :=
    resolve_congr h { v.frame with isGuided := b } v.blocks name
  unfold rootTarget
  rw [hresolve]
  dsimp only
  rw [h.classes]

theorem segmentTarget_congr (name : String) (c : Cursor) :
    segmentTarget ⟨s, { v.frame with isGuided := b }, v.blocks⟩ name c = v.segmentTarget name c := by
  have hclass (cls : Nat) :
      inClass ⟨s, { v.frame with isGuided := b }, v.blocks⟩ cls name = v.inClass cls name :=
    inClass_congr h { v.frame with isGuided := b } v.blocks cls name
  simp only [segmentTarget, memberTarget, rootTarget_congr h, hclass]

theorem hiddenMember?_congr (name : String) (c : Cursor) :
    hiddenMember? ⟨s, { v.frame with isGuided := b }, v.blocks⟩ name c = v.hiddenMember? name c := by
  simp only [hiddenMember?, h.classes]

end

end Lowering.Sight

end Diglot

namespace Diglot.Lowering

variable {α β : Type}

/-- Code of the frame sees the blocks around it. -/
structure Sight.LooksAround (v : Sight) : Prop where
  blocks : v.blocks = (v.session.enclosing? v.frame.block).getD []

/-! ## What a node gains -/

/-- The node got the symbols of the expressions that were remembered, and one more, or nothing if reads are not
recorded. -/
def Gains (v : Sight) (x : Option SymbolRef) (s t : State) : Prop :=
  ∃ parts, t.pointers = s.pointers ++ parts ∧
    ∀ r, t.node.Reads r ↔ s.node.Reads r ∨
      v.frame.isTracked = true ∧ (x = some r ∨ ∃ n ∈ parts, v.readBy? n = some r)

theorem Gains.ofSame {v : Sight} {s t : State} (hp : t.pointers = s.pointers)
    (hn : t.node = s.node) : Gains v none s t := by
  refine ⟨[], by simp [hp], fun r => ?_⟩
  simp [hn]

theorem Gains.trans {v : Sight} {x : Option SymbolRef} {s t u : State} (h : Gains v none s t)
    (h' : Gains v x t u) : Gains v x s u := by
  obtain ⟨parts, hp, hr⟩ := h
  obtain ⟨parts', hp', hr'⟩ := h'
  refine ⟨parts ++ parts', by rw [hp', hp, List.append_assoc], fun r => ?_⟩
  simp only [hr', hr, List.mem_append, or_and_right, exists_or, reduceCtorEq, false_or]
  grind

theorem reads_reading (n : GraphNode) (path : Path) (viaCall : Bool) (r : SymbolRef) :
    (n.reading path viaCall).Reads r ↔ n.Reads r ∨ path.rootSymbol? = some r := by
  simp [GraphNode.Reads, GraphNode.reading, or_and_right, exists_or]

/-- A path that the node does not get is empty, or an input already. -/
theorem reads_of_not_lacks {n : GraphNode} {path : Path} (h : n.lacks path = false) (r : SymbolRef) :
    n.Reads r ↔ n.Reads r ∨ path.rootSymbol? = some r := by
  refine ⟨.inl, fun hr => hr.elim id fun hroot => ?_⟩
  obtain rfl | hmem := GraphNode.lacks_eq_false.mp h
  · cases hroot
  · exact ⟨path, hmem, hroot⟩

theorem recordRead_ok {f : Frame} {s t : State} {path : Path} {viaCall : Bool}
    (htracked : f.isTracked = true) (hrun : recordRead path viaCall f s = .ok () t) :
    s.session.SameNames t.session ∧ t.pointers = s.pointers ∧
      ∀ r, t.node.Reads r ↔ s.node.Reads r ∨ path.rootSymbol? = some r := by
  obtain ⟨-, rfl⟩ := recordRead_eq_ok.mp hrun
  rw [htracked, Bool.true_and]
  split
  · exact ⟨⟨rfl, rfl, rfl, rfl, rfl, rfl⟩, rfl, reads_reading s.node path viaCall⟩
  · next hlacks => exact ⟨.refl _, rfl, reads_of_not_lacks (eq_false_of_ne_true hlacks)⟩

/-- A run that ends well gains the symbols of what it lowers, and keeps the meaning of all names. -/
def Tracks (v : Sight) (x : Option SymbolRef) (m : Lower α) (Q : α → Prop) : Prop :=
  ∀ b s a t, v.session.SameNames s.session → m { v.frame with isGuided := b } s = .ok a t →
    s.session.SameNames t.session ∧ Q a ∧ Gains v x s t

namespace Tracks

variable {v : Sight} {x : Option SymbolRef} {Q : α → Prop} {R : β → Prop}

theorem pure {a : α} (h : Q a) : Tracks v none (Pure.pure a : Lower α) Q := by
  intro b s a' t hs hrun
  cases hrun
  exact ⟨.refl _, h, .ofSame rfl rfl⟩

theorem bind {m : Lower α} {k : α → Lower β} (hm : Tracks v none m Q)
    (hk : ∀ a, Q a → Tracks v x (k a) R) : Tracks v x (m >>= k) R := by
  intro b s c u hs hrun
  obtain ⟨a, t, ht, hu⟩ := bind_eq_ok.mp hrun
  obtain ⟨hnames, hQ, hgain⟩ := hm b s a t hs ht
  obtain ⟨hnames', hR, hgain'⟩ := hk a hQ b t c u (hs.trans hnames) hu
  exact ⟨hnames.trans hnames', hR, hgain.trans hgain'⟩

theorem returning {m : Lower α} (hm : Tracks v x m Q) (a : β) :
    Tracks v x (m >>= fun _ => Pure.pure a) fun _ => True := by
  intro b s a' t hs hrun
  obtain ⟨c, u, hu, ht⟩ := bind_eq_ok.mp hrun
  cases ht
  obtain ⟨hnames, -, hgain⟩ := hm b s c t hs hu
  exact ⟨hnames, trivial, hgain⟩

/-- Steps that neither declare nor record anything. -/
theorem inert {m : Lower α} (h : Tame true false m) :
    Tracks v none m fun _ => True := by
  intro b s a t hs hrun
  have hkept := h.keeps_ok hrun
  obtain ⟨hnames, hnode⟩ := hkept.inert rfl
  exact ⟨hnames, trivial, .ofSame hkept.pointers hnode⟩

theorem after {m : Lower α} {k : α → Lower β} (hm : Tame true false m)
    (hk : ∀ a, Tracks v x (k a) R) : Tracks v x (m >>= k) R :=
  bind (inert hm) fun a _ => hk a

theorem mono {Q' : α → Prop} {m : Lower α} (h : Tracks v x m Q) (hQ : ∀ a, Q a → Q' a) :
    Tracks v x m Q' := by
  intro b s a t hs hrun
  obtain ⟨hnames, ha, hgain⟩ := h b s a t hs hrun
  exact ⟨hnames, hQ a ha, hgain⟩

theorem throw (stop : Stop) : Tracks v x (MonadExcept.throw stop : Lower α) Q :=
  fun _ _ _ _ _ hrun => by cases hrun

theorem halt (issue : Issue) (message : String) (span : Span) :
    Tracks v x (Lowering.halt issue message span : Lower α) Q :=
  fun _ _ _ _ _ hrun => by cases hrun

theorem ite {c : Prop} [Decidable c] {m n : Lower α} (hm : Tracks v x m Q) (hn : Tracks v x n Q) :
    Tracks v x (if c then m else n) Q := by
  split
  · exact hm
  · exact hn

theorem forM {l : List β} {k : β → Lower Unit} (h : ∀ a ∈ l, Tracks v none (k a) fun _ => True) :
    Tracks v none (l.forM k) fun _ => True := by
  induction l with
  | nil => exact pure trivial
  | cons a rest ih =>
    refine bind (h a (List.mem_cons_self ..)) fun _ _ => ih fun b hb => ?_
    exact h b (List.mem_cons_of_mem a hb)

theorem withSession {k : Session → Lower α} (h : ∀ s, Tracks v x (k s) Q) :
    Tracks v x (getSession >>= k) Q := fun b s => h s.session b s

theorem withSight (hv : v.LooksAround) {k : Sight → Lower α}
    (h : ∀ b s, v.session.SameNames s →
      Tracks v x (k ⟨s, { v.frame with isGuided := b }, v.blocks⟩) Q) :
    Tracks v x (sight >>= k) Q := by
  intro b s a t hs hrun
  obtain ⟨w, u, hsight, hk⟩ := bind_eq_ok.mp hrun
  obtain ⟨rfl, hw, hblocks, -⟩ := sight_eq_ok.mp hsight
  have hsame : w.blocks = v.blocks := by
    rw [hs.enclosing?_eq] at hblocks
    rw [hv.blocks, hblocks]
    rfl
  rw [hw, hsame] at hk
  exact h b u.session hs b u a t hs hk

theorem unguided {m : Lower α} (h : Tracks v x m Q) : Tracks v x (unguided m) Q :=
  fun _ => h false

theorem guidedCall {m : Lower α} (h : Tracks v x m Q) : Tracks v x (guidedCall m) Q :=
  withSession fun _ _ => h _

/-! ## Recording -/

theorem recordSplitDims (literals : List Segment) (written : Bool) :
    Tracks v none (recordSplitDims literals written) fun _ => True := by
  refine withSession fun u => ite (fun b s a t _ hrun => ?_) (pure trivial)
  cases hrun
  exact ⟨.refl _, trivial, .ofSame rfl rfl⟩

theorem recordRead (path : Path) (viaCall : Bool) :
    Tracks v path.rootSymbol? (recordRead path viaCall) fun _ => True := by
  intro b s a t _ hrun
  cases htracked : v.frame.isTracked with
  | true =>
    obtain ⟨hnames, hpointers, hreads⟩ := recordRead_ok (f := { v.frame with isGuided := b }) htracked hrun
    refine ⟨hnames, trivial, [], by simp [hpointers], fun r => ?_⟩
    simp [hreads, htracked]
  | false =>
    have hkept : t = s := by simpa [htracked] using (recordRead_eq_ok.mp hrun).2
    rw [hkept]
    refine ⟨.refl _, trivial, [], (List.append_nil _).symm, fun r => ?_⟩
    simp [htracked]

end Tracks

/-! ## Segments -/

namespace Cursor

/-- From `c` to `d` a segment was lowered that stands for the symbol `y`: it is part of the path, or the
path is as before and will stay so. -/
structure After (c : Cursor) (y : Option SymbolRef) (d : Cursor) : Prop where
  late : c.isLate = true → d.isLate = true
  path : (∃ segment : Segment, segment.symbol = y ∧ d.path = (c.track segment).path) ∨
    d.path = c.path ∧ (c.anchor = none → y = none) ∧ (d.isStopped = true ∨ d.isLate = true)

/-- The path begins at the symbol `x`, and without a path none will follow. -/
structure Rooted (x : Option SymbolRef) (c : Cursor) : Prop where
  root : c.path.rootSymbol? = x
  closed : c.path = [] → c.isStopped = true ∨ c.isLate = true

variable {c d : Cursor} {x y : Option SymbolRef}

@[simp] theorem path_track (c : Cursor) (segment : Segment) :
    (c.track segment).path = if c.isLate then c.path else c.path ++ [segment] := by
  unfold track
  split <;> rfl

@[simp] theorem isLate_track (c : Cursor) (segment : Segment) :
    (c.track segment).isLate = c.isLate := by
  unfold track
  split <;> rfl

theorem After.tracked (segment : Segment) (hlate : d.isLate = c.isLate)
    (hpath : d.path = (c.track segment).path) : c.After segment.symbol d :=
  ⟨fun h => hlate.trans h, .inl ⟨segment, rfl, hpath⟩⟩

theorem After.start {isSingle : Bool} (h : (start isSingle).After y d) : Rooted y d := by
  obtain ⟨segment, rfl, hpath⟩ | ⟨hpath, hnone, hend⟩ := h.path
  · have hone : d.path = [segment] := hpath
    refine ⟨by rw [hone]; rfl, fun hempty => ?_⟩
    rw [hone] at hempty
    cases hempty
  · have hempty : d.path = [] := hpath
    exact ⟨by rw [hempty, hnone rfl]; rfl, fun _ => hend⟩

theorem Rooted.after (h : Rooted x c) (hgoes : c.isStopped = false) (hd : c.After y d) :
    Rooted x d := by
  -- A path that is still empty behind the first segment stays empty, as the chain is late.
  have hlate : c.path = [] → c.isLate = true := by
    intro hempty
    obtain hstop | hlate := h.closed hempty
    · rw [hgoes] at hstop
      cases hstop
    · exact hlate
  have hsame (hpath : d.path = c.path) : Rooted x d :=
    ⟨hpath ▸ h.root, fun hempty => .inr (hd.late (hlate (hpath ▸ hempty)))⟩
  obtain ⟨segment, -, hpath⟩ | ⟨hpath, -, -⟩ := hd.path
  · unfold track at hpath
    split at hpath
    · exact hsame hpath
    · next hnot =>
      cases hp : c.path with
      | nil => exact absurd (hlate hp) hnot
      | cons first rest =>
        have hcons : d.path = first :: (rest ++ [segment]) := by simpa [hp] using hpath
        have hroot := h.root
        rw [hp] at hroot
        refine ⟨by rw [hcons]; exact hroot, fun hempty => ?_⟩
        rw [hcons] at hempty
        cases hempty
  · exact hsame hpath

end Cursor

namespace Tracks

variable {v : Sight}

theorem stopChain (c : Cursor) (span : Span) :
    Tracks v none (stopChain c span) fun d =>
      d.path = c.path ∧ d.isLate = c.isLate ∧ d.isStopped = true :=
  bind (inert (.emitPush _ _ _)) fun _ _ => pure ⟨rfl, rfl, rfl⟩

theorem stopChain_after {c : Cursor} {y : Option SymbolRef} (hy : c.anchor = none → y = none)
    (span : Span) : Tracks v none (Lowering.stopChain c span) (c.After y) :=
  mono (stopChain c span) fun _ h => ⟨fun hl => h.2.1.trans hl, .inr ⟨h.1, hy, .inl h.2.2⟩⟩

theorem lowerThis (ident : Identifier) (c : Cursor) :
    Tracks v none (lowerThis ident c) (c.After none) := by
  have hend (cls : Option Nat) : c.After none
      ({ c with type := objectType cls, depth := c.depth + 1 }.track (.ofName ident.name none cls)) :=
    .tracked (.ofName ident.name none cls) (by simp) (by simp)
  refine after .classScope fun cls => ite ?_ ?_
  · exact after (.emitPush _ _ _) fun _ => pure (hend cls)
  · exact after (.emitPushm _ _ _) fun _ => pure (hend cls)

theorem lowerClassName (ident : Identifier) (c : Cursor) (cls : Nat) :
    Tracks v none (lowerClassName ident c cls) (c.After none) := by
  have hend : c.After none
      { c.track (.ofName ident.name none (some cls)) with
        type := .scalar cls, depth := (c.track (.ofName ident.name none (some cls))).depth + 1
        anchor := some cls } :=
    .tracked (.ofName ident.name none (some cls)) (by simp) rfl
  refine ite ?_ ?_
  · exact after (.emitPush _ _ _) fun _ => pure hend
  · exact after (.emitPushm _ _ _) fun _ => pure hend

theorem lowerInaccessible (hv : v.LooksAround) (ident : Identifier) (c : Cursor) :
    Tracks v none (lowerInaccessible ident c)
      (c.After ((v.hiddenMember? ident.name c).bind Segment.symbol)) := by
  refine after (.report _ _ _) fun _ => withSight hv fun b s hs => ?_
  rw [Sight.hiddenMember?_congr hs b]
  cases v.hiddenMember? ident.name c with
  | none => exact stopChain_after (fun _ => rfl) _
  | some segment =>
    refine mono (stopChain _ _) fun d hd => .tracked segment (hd.2.1.trans ?_) hd.1
    simp

theorem registerLateVariable (name : String) (c : Cursor) :
    Tracks v none (registerLateVariable name c) fun p =>
      p.2.path = c.path := by
  intro b s a t hs hrun
  obtain ⟨hnames, -, hgain⟩ := inert (.registerLateVariable name c) b s a t hs hrun
  refine ⟨hnames, ?_, hgain⟩
  obtain ⟨u, s', hu, hrun⟩ := bind_eq_ok.mp hrun
  cases hlate : c.lateEntry with
  | none =>
    rw [hlate] at hrun
    cases hrun
    rfl
  | some i =>
    rw [hlate] at hrun
    dsimp only at hrun
    rw [run_ite] at hrun
    split at hrun
    · cases hrun
      rfl
    · cases hrun
      rfl

theorem symbol_callSegment (p : Procedure) (name : String) : (callSegment p name).symbol = none := by
  unfold callSegment
  split <;> rfl

theorem lowerKnownCall (call : Call) (c : Cursor) (r : ProcRef) :
    Tracks v none (lowerKnownCall call c r) fun p => p.2.symbol = none := by
  have hcallee : Tracks v none (modify fun s : State => { s with lastCallee := some r }) fun _ => True := by
    intro b s a t _ hrun
    cases hrun
    exact ⟨.refl _, trivial, .ofSame rfl rfl⟩
  refine after (.emitCallTo _ _ _ _) fun _ => withSession fun s => ?_
  split
  · exact throw _
  · next p _ =>
    have hend : (callSegment p call.name).symbol = none := symbol_callSegment p call.name
    exact ite (bind hcallee fun _ _ => pure hend) (pure hend)

theorem lowerLateCall (call : Call) (c : Cursor) :
    Tracks v none (lowerLateCall call c) fun p => p.2.symbol = none := by
  have hcall : Tracks v none (do
      let i ← registerLateFunction call.name call.args.length
      let _ ← emitLateCall i c.depth call.span
      return (Ty.var, Segment.ofMethod call.name)) fun p => p.2.symbol = none :=
    after (.registerLateFunction _ _) fun _ => after (.emitLateCall _ _ _) fun _ => pure rfl
  exact ite (after (.warnFunctionNotFound _ _ _) fun _ => hcall) hcall

section
variable (hv : v.LooksAround) {part : LowerPart} (hpart : ∀ n, Tracks v none (part n) fun _ => True)

include hpart

theorem lowerDims (dims : List Node) : Tracks v none (lowerDims part dims) fun _ => True :=
  unguided (forM fun d _ => bind (hpart d) fun _ _ => pure trivial)

theorem lowerLate (ident : Identifier) (c : Cursor) :
    Tracks v none (lowerLate part ident c) (c.After none) := by
  have hrest : Tracks v none (finishLate part ident c)
      (c.After none) := by
    refine bind (registerLateVariable ident.name c) fun p hp => bind (lowerDims hpart _) fun _ _ => ?_
    have hpush : Tracks v none (do
        let _ ← emitPushm (.dynamic p.1) (← classScope) ident.span
        return { p.2 with type := .var, depth := p.2.depth + 1, isLate := true, anchor := none })
        (c.After none) :=
      after .classScope fun _ => after (.emitPushm _ _ _) fun _ =>
        pure ⟨fun _ => rfl, .inr ⟨hp, fun _ => rfl, .inr rfl⟩⟩
    exact ite (after (.emitPushDims _) fun _ => hpush) hpush
  exact ite (after (.warnUnbound _ _) fun _ => hrest) hrest

theorem lowerInvocation (call : Call) (c : Cursor) (target : Option ProcRef) :
    Tracks v none (lowerInvocation part call c target) (c.After none) := by
  have hrest (p : Ty × Segment) (hp : p.2.symbol = none) :
      Tracks v none (finishInvocation part call c target p) (c.After none) := by
    have hend : Tracks v none (do
        let literals := literalDims (← read).dialect call.dims
        let c := c.track { p.2 with dims := literals }
        return { c with
          type := p.1.subscripted call.dims.length, depth := 1, afterCall := true, anchor := none
          lateEntry := none, hasCall := c.hasCall || target.isSome }) (c.After none) := by
      refine after .read fun f => pure (hp ▸ ?_)
      exact .tracked { p.2 with dims := literalDims f.dialect call.dims } (by simp) rfl
    refine bind (lowerDims hpart _) fun _ _ => ite (after (.emitPushIndex _) fun _ => hend) hend
  refine bind (forM fun a _ => bind (hpart a) fun _ _ => pure trivial) fun _ _ => ?_
  cases target with
  | some r => exact bind (lowerKnownCall call c r) hrest
  | none => exact bind (lowerLateCall call c) hrest

include hv

theorem lowerSymbol (ident : Identifier) (c : Cursor) (r : SymbolRef) :
    Tracks v none (lowerSymbol part ident c r) (c.After (some r)) := by
  refine after (.getSymbol r) fun symbol => ?_
  cases hanchor : (if symbol.isStatic then none else c.anchor) with
  | some cls =>
    have hclass : c.anchor ≠ none := by
      intro hnone
      rw [hnone, ite_self] at hanchor
      cases hanchor
    refine withSight hv fun b s _ => after (.report _ _ _) fun _ => ?_
    exact stopChain_after (fun hnone => absurd hnone hclass) _
  | none =>
    refine bind (lowerDims hpart _) fun _ _ => after .read fun f => ?_
    let segment : Segment := { Segment.ofName ident.name (some r) symbol.classScope with
      dims := literalDims f.dialect ident.dims }
    have hend : c.After (some r)
        { c.track segment with
          type := symbol.type.subscripted ident.dims.length, depth := (c.track segment).depth + 1
          anchor := none } := .tracked segment (by simp) rfl
    have hpush : Tracks v none (do
        let _ ← emitPushm (.ofSymbol symbol) symbol.classScope ident.span
        return ({ c.track segment with
          type := symbol.type.subscripted ident.dims.length, depth := (c.track segment).depth + 1
          anchor := none } : Cursor)) (c.After (some r)) :=
      after (.emitPushm _ _ _) fun _ => pure hend
    refine bind (recordSplitDims _ _) fun _ _ => ite ?_ (ite ?_ hpush)
    · exact after (.emitPush _ _ _) fun _ => pure hend
    · exact after (.emitPushDims _) fun _ => hpush

theorem lowerIdentifier (ident : Identifier) (c : Cursor) :
    Tracks v none (lowerIdentifier part ident c) (c.After (v.segmentSymbol? ident c)) := by
  unfold Lowering.lowerIdentifier Sight.segmentSymbol?
  split
  · exact lowerThis ident c
  · refine withSight hv fun b s hs => ?_
    rw [Sight.segmentTarget_congr hs b]
    cases v.segmentTarget ident.name c with
    | symbol r => exact lowerSymbol hv hpart ident c r
    | cls id => exact lowerClassName ident c id
    | inaccessible => exact lowerInaccessible hv ident c
    | arrayReceiver => exact stopChain_after (fun _ => rfl) _
    | unbound =>
      refine ite (after (.warnUnbound _ _) fun _ => ?_) (lowerLate hpart ident c)
      exact stopChain_after (fun _ => rfl) _

theorem lowerResolvedCall (call : Call) (c : Cursor) :
    Tracks v none (lowerResolvedCall part call c) (c.After none) := by
  have hstop : Tracks v none (Lowering.stopChain c call.span) (c.After none) :=
    stopChain_after (fun _ => rfl) _
  refine withSight hv fun b s _ => ?_
  split
  · exact lowerInvocation hpart call c _
  · exact lowerInvocation hpart call c none
  · exact after (.report _ _ _) fun _ => hstop
  · exact after (.report _ _ _) fun _ => hstop
  · exact hstop

theorem lowerCall (call : Call) (c : Cursor) :
    Tracks v none (lowerCall part call c) fun d => ∃ y, (c.depth = 0 → y = none) ∧ c.After y d := by
  refine guidedCall (withSight hv fun b s _ => ?_)
  cases hproperty : accessedProperty? ⟨s, { v.frame with isGuided := b }, v.blocks⟩ call c with
  | some property =>
    -- Only behind another segment is a call taken for the property that it reads.
    have hdepth : c.depth ≠ 0 := by
      intro hzero
      unfold accessedProperty? at hproperty
      split at hproperty
      · cases hproperty
      · simp [hzero] at hproperty
    refine mono (lowerIdentifier hv hpart ⟨property, call.dims, [], call.span⟩ c) fun d hd => ?_
    exact ⟨_, fun hzero => absurd hzero hdepth, hd⟩
  | none => exact mono (lowerResolvedCall hv hpart call c) fun d hd => ⟨none, fun _ => rfl, hd⟩

/-- The first segment of a chain stands for the symbol that the chain begins at. -/
theorem lowerSegment (isRoot : Bool) (segment : Node) (c : Cursor) :
    Tracks v none (lowerSegment part isRoot segment c) fun d =>
      ∃ y, (c.depth = 0 → y = v.rootOf? segment) ∧ c.After y d := by
  have hother (other : Node) (hnone : other.asIdentifier? = none) :
      Tracks v none (if isRoot && isValueRoot other then lowerValueRoot part other c
        else Lowering.halt .nonIdentifierSegment
          "A member access segment must be an identifier or a call." other.span) fun d =>
        ∃ y, (c.depth = 0 → y = v.rootOf? other) ∧ c.After y d := by
    refine ite (bind (hpart other) fun type _ => pure ⟨none, fun _ => ?_, ?_⟩) (halt _ _ _)
    · simp [Sight.rootOf?, hnone]
    · exact ⟨fun _ => rfl, .inr ⟨rfl, fun _ => rfl, .inr rfl⟩⟩
  cases segment with
  | identifier ident =>
    refine mono (lowerIdentifier hv hpart ident c) fun d hd => ⟨_, fun hzero => ?_, hd⟩
    exact Sight.segmentSymbol?_root ident hzero
  | call call => exact lowerCall hv hpart call c
  | _ => exact hother _ rfl

/-- The segments behind the first one leave it the first. -/
theorem lowerSegments {x : Option SymbolRef} (segments : List Node) {c : Cursor} (hc : c.Rooted x) :
    Tracks v none (lowerSegments part false segments c) (Cursor.Rooted x) := by
  induction segments generalizing c with
  | nil => exact pure hc
  | cons segment rest ih =>
    unfold Lowering.lowerSegments
    split
    · exact pure hc
    · next hgoes =>
      refine bind (lowerSegment hv hpart false segment c) fun d hd => ?_
      obtain ⟨y, -, hafter⟩ := hd
      exact ih (hc.after (Bool.eq_false_iff.mpr hgoes) hafter)

/-- A chain is recorded under the symbol that it begins at. -/
theorem lowerChain (segment : Node) (rest : List Node) (span : Span) :
    Tracks v (v.rootOf? segment.unwrap) (lowerChain part (segment :: rest) span) fun _ => True := by
  have hrecord (c : Cursor) (hc : c.Rooted (v.rootOf? segment.unwrap)) :
      Tracks v (v.rootOf? segment.unwrap) (do
        Lowering.recordRead c.path c.hasCall
        return if c.isStopped then .null else c.type) fun _ => True := by
    rw [← hc.root]
    exact returning (recordRead _ _) _
  have hsegments (isSingle : Bool) : Tracks v (v.rootOf? segment.unwrap)
      (finishChain part (segment.unwrap :: rest.map Node.unwrap) isSingle span) fun _ => True := by
    have hwalk : Tracks v none (Lowering.lowerSegments part true
        (segment.unwrap :: rest.map Node.unwrap) (.start isSingle))
        (Cursor.Rooted (v.rootOf? segment.unwrap)) := by
      refine bind (lowerSegment hv hpart true segment.unwrap (.start isSingle)) fun c hc => ?_
      obtain ⟨y, hy, hafter⟩ := hc
      rw [← hy rfl]
      exact lowerSegments hv hpart _ hafter.start
    refine bind hwalk fun c hc => ite (after (.emitPushlist _ _ _) fun _ => ?_) ?_
    · exact hrecord c hc
    · exact hrecord c hc
  unfold Lowering.lowerChain
  exact after .guidesWanted fun on => ite (after (.emitGuides _) fun _ => hsegments _) (hsegments _)

end

end Tracks

end Diglot.Lowering
