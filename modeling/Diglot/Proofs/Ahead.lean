import Diglot.Proofs.Chains.Probe
import Diglot.Proofs.Chains.Temporary

/-! # What looking ahead does

Looking ahead into an expression declares untyped variables, and that is all it does: `Session.withUntyped`
tells the session behind it, in which one table has grown and one counter has moved on. A name is declared if
looking ahead comes upon it and it awaits its declaration (`Sight.Awaits`): the unit assigns it somewhere, and
it stands for nothing yet. Behind the run no such name is left, so that a second run does nothing
(`probe_declares`).
-/

set_option autoImplicit false

namespace Diglot

open Lowering

namespace Node

variable {n : Node} {name : String}

theorem ahead_iff : n.Ahead name ↔
    (∃ ident, n = .identifier ident ∧ ident.isThis = false ∧ ident.name = name) ∨
      ∃ m ∈ n.partsAhead, m.Ahead name := by
  constructor
  · intro h
    cases h with
    | alone hthis hname => exact .inl ⟨_, rfl, hthis, hname⟩
    | part hm h => exact .inr ⟨_, hm, h⟩
  · rintro (⟨ident, rfl, hthis, hname⟩ | ⟨m, hm, h⟩)
    · exact .alone hthis hname
    · exact .part hm h

/-- Only a lone identifier is come upon itself. -/
theorem ahead_iff_parts (h : n.asIdentifier? = none) : n.Ahead name ↔ ∃ m ∈ n.partsAhead, m.Ahead name := by
  rw [ahead_iff, or_iff_right]
  rintro ⟨ident, rfl, -⟩
  cases h

end Node

namespace Session

/-- An untyped variable with a number of the bucket for its place. -/
def untyped (f : Frame) (bucket : Bucket) (n : Nat) (name : String) : Symbol :=
  { name, type := .var, classScope := f.scope.classScope, function := f.scope.function
    offset := bucket.offset n, block := f.block }

/-- The session with an untyped variable of each name behind the variables of the block, from the given number of
the bucket on. -/
def untypedFrom (s : Session) (f : Frame) (bucket : Bucket) (n : Nat) (names : List String) : Session :=
  { s with counters := bucket.setNext s.counters (n + names.length) }.modifyBlock f.block fun b =>
    { b with symbols := (names.mapIdx fun k name => untyped f bucket (n + k) name).foldl .append b.symbols }

/-- The session with an untyped variable of each name. Nothing else is new, but that the counter that the
variables get their places from has moved on. -/
def withUntyped (s : Session) (f : Frame) (names : List String) : Session :=
  let bucket := bucketOf s.isWatching f.scope false
  s.untypedFrom f bucket (bucket.next s.counters s.classes) names

variable {s : Session} {f : Frame} {name : String} {names more : List String}

theorem modifyBlock_self (s : Session) (id : Nat) : (s.modifyBlock id fun b => b) = s := by
  have hid : s.blocks.modify id (fun b => b) = s.blocks := by
    refine Array.ext (by simp) fun i _ _ => ?_
    rw [Array.getElem_modify]
    split <;> rfl
  unfold modifyBlock
  rw [hid]

theorem modifyBlock_modifyBlock (s : Session) (id : Nat) (g k : Block → Block) :
    (s.modifyBlock id g).modifyBlock id k = s.modifyBlock id (k ∘ g) := by
  have hcomp : (s.blocks.modify id g).modify id k = s.blocks.modify id (k ∘ g) := by
    refine Array.ext (by simp) fun i _ _ => ?_
    simp only [Array.getElem_modify]
    split <;> rfl
  unfold modifyBlock
  rw [hcomp]

theorem withUntyped_nil (hown : f.IsOwn) (s : Session) : s.withUntyped f [] = s := by
  refine Eq.trans ?_ (s.modifyBlock_self f.block)
  unfold withUntyped untypedFrom
  obtain hb | hb | hb := bucketOf_local hown.declaresLocals s.isWatching false
  all_goals rw [hb]; rfl

/-- The variable of the first name has the first number, and the others are counted on from there. -/
theorem untypedFrom_cons (s : Session) {b : Bucket} (hb : b = .watch ∨ b = .frame ∨ b = .global) (n : Nat)
    (name : String) (names : List String) :
    s.untypedFrom f b n (name :: names) =
      ({ s with counters := b.setNext s.counters (n + 1) }.enterLocal f.block
        (untyped f b n name)).untypedFrom f b (n + 1) names := by
  let first (b' : Block) : Block := { b' with symbols := b'.symbols.append (untyped f b n name) }
  let others (b' : Block) : Block :=
    { b' with symbols := (names.mapIdx fun k name => untyped f b (n + 1 + k) name).foldl .append b'.symbols }
  have hlength : n + (name :: names).length = n + 1 + names.length := by
    rw [List.length_cons]
    omega
  have hshift : (fun k => untyped f b (n + (k + 1))) = fun k => untyped f b (n + 1 + k) := by
    funext k
    rw [show n + (k + 1) = n + 1 + k by omega]
  have hcounters : b.setNext (b.setNext s.counters (n + 1)) (n + 1 + names.length) =
      b.setNext s.counters (n + 1 + names.length) := by
    obtain rfl | rfl | rfl := hb <;> rfl
  let counted : Session := { s with counters := b.setNext s.counters (n + 1 + names.length) }
  calc s.untypedFrom f b n (name :: names)
      = counted.modifyBlock f.block (others ∘ first) := by
        unfold untypedFrom
        rw [List.mapIdx_cons, hshift, hlength]
        rfl
    _ = (counted.modifyBlock f.block first).modifyBlock f.block others :=
        (counted.modifyBlock_modifyBlock f.block first others).symm
    _ = _ := by
        unfold counted
        rw [← hcounters]
        rfl

/-- The names are declared one after the other. -/
theorem withUntyped_cons (hown : f.IsOwn) (s : Session) (name : String) (names : List String) :
    s.withUntyped f (name :: names) = (s.declare f { name, type := .var }).withUntyped f names := by
  obtain ⟨b, hb, hlocal⟩ : ∃ b, bucketOf s.isWatching f.scope false = b ∧
      (b = .watch ∨ b = .frame ∨ b = .global) := ⟨_, rfl, bucketOf_local hown.declaresLocals _ _⟩
  let n := b.next s.counters s.classes
  let t : Session := { s with counters := b.setNext s.counters (n + 1) }.enterLocal f.block (untyped f b n name)
  have hdeclare : s.declare f { name, type := .var } = t := by
    unfold declare
    dsimp only
    rw [hb]
    obtain rfl | rfl | rfl := hlocal <;> rfl
  have ht : t.withUntyped f names = t.untypedFrom f b (n + 1) names := by
    have hbucket : bucketOf t.isWatching f.scope false = b := hb
    have hnext : b.next t.counters t.classes = n + 1 := by
      obtain rfl | rfl | rfl := hlocal <;> rfl
    unfold withUntyped
    dsimp only
    rw [hbucket, hnext]
  rw [hdeclare, ht, withUntyped, hb, untypedFrom_cons s hlocal]

end Session

namespace Lowering

/-! ## Names that await their declaration -/

/-- The unit assigns the name somewhere, and it stands for nothing yet. -/
structure Sight.Awaits (v : Sight) (name : String) : Prop where
  forward : name ∈ v.frame.forward
  unbound : v.resolve name = .unbound
  noClass : v.session.classes.indexOf? name = none

/-- Code of the frame sees the blocks around it, whose tables list the positions of their names. -/
structure Frame.Surveys (f : Frame) (s : Session) : Prop where
  looksOut : f.LooksOut s
  indexed : s.Indexed

/-- Statements are lowered in code of no class, or of a procedure of a class other than `void`. -/
structure Frame.InCode (f : Frame) : Prop where
  own : f.IsOwn
  notVoid : f.scope.classScope ≠ some Primitive.void.uid

variable {f : Frame} {s : Session} {name : String} {names : List String}

/-- A variable is declared in one table. -/
theorem run_allocate_declare (hown : f.IsOwn) {s : State} (hlooks : f.LooksOut s.session) (d : Declaration) :
    ∃ r x, allocate d f s = .ok r { s with session := s.session.declare f d } ∧
      Entered f d r x s { s with session := s.session.declare f d } := by
  have hdeclare : s.session.CanDeclare f d := by
    unfold Session.CanDeclare
    obtain hb | hb | hb := bucketOf_local hown.declaresLocals s.session.isWatching d.isStatic
    all_goals
      rw [hb]
      exact hlooks.block?_isSome
  obtain ⟨r, hrun, -⟩ := run_allocate hdeclare
  obtain ⟨r', x, t, hrun', hentered⟩ := run_allocate_entered hown hlooks d
  cases hrun.symm.trans hrun'
  exact ⟨r, x, hrun, hentered⟩

section
variable (hf : f.InCode) (hs : f.Surveys s)
include hf hs

theorem Frame.Surveys.declare (d : Declaration) : f.Surveys (s.declare f d) := by
  obtain ⟨_, _, -, hentered⟩ := run_allocate_declare hf.own (s := { session := s }) hs.looksOut d
  exact ⟨hentered.looksOut hs.looksOut, (s.extends_declare f d).indexed hs.indexed⟩

/-- A name that is declared awaits that no more; the others do so as before. -/
theorem awaits_declare (hname : (sightFrom f s).Awaits name) (other : String) :
    (sightFrom f (s.declare f { name, type := .var })).Awaits other ↔
      (sightFrom f s).Awaits other ∧ other ≠ name := by
  obtain ⟨r, _, -, hentered⟩ :=
    run_allocate_declare hf.own (s := { session := s }) hs.looksOut { name, type := .var }
  have hself := hentered.resolve_self hf.own hf.notVoid hs.looksOut rfl hname.unbound
  have hclasses : (s.declare f { name, type := .var }).classes = s.classes := by
    obtain ⟨counters, hnames⟩ := hentered.names
    exact hnames.classes
  constructor
  · intro ⟨hforward, hunbound, hclass⟩
    have hne : other ≠ name := by
      rintro rfl
      cases hself.symm.trans hunbound
    refine ⟨⟨hforward, ?_, ?_⟩, hne⟩
    · rw [← hentered.resolve_other hs.indexed hne]
      exact hunbound
    · change s.classes.indexOf? other = none
      rw [← hclasses]
      exact hclass
  · intro ⟨⟨hforward, hunbound, hclass⟩, hne⟩
    refine ⟨hforward, ?_, ?_⟩
    · rw [← hunbound]
      exact hentered.resolve_other hs.indexed hne
    · change (s.declare f _).classes.indexOf? other = none
      rw [hclasses]
      exact hclass

/-- Names that await their declaration do so no more once they are declared. -/
theorem awaits_withUntyped (hnodup : names.Nodup) (hnames : ∀ name ∈ names, (sightFrom f s).Awaits name)
    (other : String) :
    (sightFrom f (s.withUntyped f names)).Awaits other ↔ (sightFrom f s).Awaits other ∧ other ∉ names := by
  induction names generalizing s with
  | nil => simp [Session.withUntyped_nil hf.own]
  | cons name rest ih =>
    obtain ⟨hnotin, hrest⟩ := List.nodup_cons.mp hnodup
    have hfirst := hnames name (List.mem_cons_self ..)
    have hstill (n : String) (hn : n ∈ rest) : (sightFrom f (s.declare f { name, type := .var })).Awaits n := by
      refine (awaits_declare hf hs hfirst n).mpr ⟨hnames n (List.mem_cons_of_mem _ hn), ?_⟩
      rintro rfl
      exact hnotin hn
    rw [Session.withUntyped_cons hf.own, ih (hs.declare hf _) hrest hstill, awaits_declare hf hs hfirst,
      List.mem_cons, not_or, and_assoc]

theorem Frame.Surveys.withUntyped (names : List String) : f.Surveys (s.withUntyped f names) := by
  induction names generalizing s with
  | nil => rwa [Session.withUntyped_nil hf.own]
  | cons name rest ih =>
    rw [Session.withUntyped_cons hf.own]
    exact ih (hs.declare hf _)

omit hs in
theorem withUntyped_append (s : Session) (names more : List String) :
    (s.withUntyped f names).withUntyped f more = s.withUntyped f (names ++ more) := by
  induction names generalizing s with
  | nil => rw [Session.withUntyped_nil hf.own, List.nil_append]
  | cons name rest ih =>
    rw [List.cons_append, Session.withUntyped_cons hf.own, Session.withUntyped_cons hf.own, ih]

end

/-! ## Runs that declare names -/

/-- Of the names of the kind, the run declares those that await it, and does nothing else; or it halts behind
some of them. -/
def Declares (f : Frame) (P : String → Prop) (m : Lower Unit) : Prop :=
  ∀ s : State, f.Surveys s.session → ∃ names : List String, names.Nodup ∧
    (∀ name ∈ names, P name ∧ (sightFrom f s.session).Awaits name) ∧
    ((m f s = .ok () { s with session := s.session.withUntyped f names } ∧
        ∀ name, P name → ¬ (sightFrom f (s.session.withUntyped f names)).Awaits name) ∨
      ∃ d, m f s = .error (.halt d) { s with session := (s.session.withUntyped f names).report d })

namespace Declares

variable {P Q : String → Prop} (hf : f.InCode)
include hf

theorem pure (h : ∀ name, ¬ P name) : Declares f P (Pure.pure ()) := by
  intro s hs
  refine ⟨[], List.nodup_nil, nofun, .inl ⟨?_, fun name hname => absurd hname (h name)⟩⟩
  rw [Session.withUntyped_nil hf.own]
  rfl

theorem halt (issue : Issue) (message : String) (span : Span) : Declares f P (Lowering.halt issue message span) := by
  intro s hs
  refine ⟨[], List.nodup_nil, nofun, .inr ⟨s.session.diagnostic issue message span, ?_⟩⟩
  rw [Session.withUntyped_nil hf.own]
  rfl

theorem haltThen {α : Type} (issue : Issue) (message : String) (span : Span) (k : α → Lower Unit) :
    Declares f P (Lowering.halt issue message span >>= k) := halt hf issue message span

theorem bind {m k : Lower Unit} (hm : Declares f P m) (hk : Declares f Q k) :
    Declares f (fun name => P name ∨ Q name) (m >>= fun _ => k) := by
  intro s hs
  obtain ⟨names, hnodup, hnames, ⟨hrun, hdone⟩ | ⟨d, hrun⟩⟩ := hm s hs
  · have hawait := fun name hname => (hnames name hname).2
    have hafter := awaits_withUntyped hf hs hnodup hawait
    obtain ⟨more, hnodup', hnames', hend⟩ :=
      hk { s with session := s.session.withUntyped f names } (hs.withUntyped hf names)
    have hmore := awaits_withUntyped hf (hs.withUntyped hf names) hnodup' fun name hname => (hnames' name hname).2
    refine ⟨names ++ more, ?_, fun name hname => ?_, ?_⟩
    · refine List.nodup_append.mpr ⟨hnodup, hnodup', fun a ha b hb hab => ?_⟩
      exact ((hafter b).mp (hnames' b hb).2).2 (hab ▸ ha)
    · obtain hname | hname := List.mem_append.mp hname
      · exact ⟨.inl (hnames name hname).1, hawait name hname⟩
      · exact ⟨.inr (hnames' name hname).1, ((hafter name).mp (hnames' name hname).2).1⟩
    · rw [← withUntyped_append hf]
      obtain ⟨hrun', hdone'⟩ | ⟨d, hrun'⟩ := hend
      · refine .inl ⟨by rw [run_bind, hrun]; exact hrun', fun name hname => ?_⟩
        obtain hname | hname := hname
        · exact fun h => hdone name hname ((hmore name).mp h).1
        · exact hdone' name hname
      · exact .inr ⟨d, by rw [run_bind, hrun]; exact hrun'⟩
  · exact ⟨names, hnodup, fun name hname => ⟨.inl (hnames name hname).1, (hnames name hname).2⟩,
      .inr ⟨d, by rw [run_bind, hrun]⟩⟩

omit hf in
theorem congr {m : Lower Unit} (h : Declares f P m) (hPQ : ∀ name, P name ↔ Q name) : Declares f Q m := by
  obtain rfl : P = Q := funext fun name => propext (hPQ name)
  exact h

theorem forM {α : Type} {l : List α} {P : α → String → Prop} {k : α → Lower Unit}
    (h : ∀ a ∈ l, Declares f (P a) (k a)) : Declares f (fun name => ∃ a ∈ l, P a name) (l.forM k) := by
  induction l with
  | nil => exact pure hf (by simp)
  | cons a rest ih =>
    refine congr (bind hf (h a (List.mem_cons_self ..)) (ih fun b hb => h b (List.mem_cons_of_mem a hb))) fun name => ?_
    simp

/-- A name that awaits its declaration is declared. -/
theorem declareForward (name : String) : Declares f (· = name) (declareForward name) := by
  intro s hs
  by_cases hname : (sightFrom f s.session).Awaits name
  · obtain ⟨r, _, hrun, -⟩ := run_allocate_declare hf.own hs.looksOut { name, type := .var }
    have hone : s.session.withUntyped f [name] = s.session.declare f { name, type := .var } := by
      rw [Session.withUntyped_cons hf.own, Session.withUntyped_nil hf.own]
    refine ⟨[name], List.pairwise_singleton .., fun n hn => ?_, .inl ⟨?_, fun n hn h => ?_⟩⟩
    · obtain rfl := List.mem_singleton.mp hn
      exact ⟨rfl, hname⟩
    · have hcontains : f.forward.contains name = true := List.contains_iff_mem.mpr hname.forward
      have hclass : (sightFrom f s.session).session.classes.indexOf? name = none := hname.noClass
      unfold Lowering.declareForward
      simp only [run_bind, run_read, run_ite, hcontains, if_true, hs.looksOut.run_sight, hname.unbound, hclass,
        decide_true, Option.isNone_none, Bool.and_self, hrun, run_pure, hone]
    · rw [hone, awaits_declare hf hs hname] at h
      exact h.2 hn
  · refine ⟨[], List.nodup_nil, nofun, .inl ⟨?_, fun n hn => ?_⟩⟩
    · rw [Session.withUntyped_nil hf.own]
      refine Idle.declareForward hs.looksOut fun hforward => ?_
      refine Decidable.or_iff_not_imp_left.mpr fun hbound => Option.isSome_iff_ne_none.mpr fun hclass => ?_
      exact hname ⟨hforward, Decidable.not_not.mp hbound, hclass⟩
    · rw [hn, Session.withUntyped_nil hf.own]
      exact hname

/-! ## Expressions -/

section
variable {part : ProbePart} {n : Node}

theorem parts {l : List Node} (hpart : ∀ m ∈ l, Declares f (fun name => m.Ahead name) (part m)) :
    Declares f (fun name => ∃ m ∈ l, m.Ahead name) (l.forM part) := forM hf hpart

/-- Looking ahead into a lone identifier goes on to its subscripts, and then to the name. -/
theorem probeIdentifier {ident : Identifier}
    (hpart : ∀ m ∈ ident.dims, Declares f (fun name => m.Ahead name) (part m)) :
    Declares f (fun name => (Node.identifier ident).Ahead name) (probeIdentifier part ident) := by
  unfold Lowering.probeIdentifier
  cases hthis : ident.isThis with
  | true =>
    refine congr (bind hf (parts hf hpart) (pure hf (P := fun _ => False) fun _ => id)) fun name => ?_
    rw [Node.ahead_iff]
    simp [Node.partsAhead, hthis]
  | false =>
    refine congr (bind hf (parts hf hpart) (declareForward hf ident.name)) fun name => ?_
    rw [Node.ahead_iff, or_comm, eq_comm]
    simp [Node.partsAhead, hthis]

/-- Looking ahead into a segment of a longer chain goes on to its arguments. -/
theorem probeSegment (hpart : ∀ m ∈ n.arguments, Declares f (fun name => m.Ahead name) (part m)) :
    Declares f (fun name => ∃ m ∈ n.arguments, m.Ahead name) (probeSegment part false n) := by
  cases n with
  | call c => exact parts hf hpart
  | _ => exact pure hf (by simp [Node.arguments])

theorem probeChain {segments : List Node} (hmember : 2 ≤ segments.length)
    (hpart : ∀ m ∈ segments, ∀ a ∈ m.unwrap.arguments, Declares f (fun name => a.Ahead name) (part a)) :
    Declares f (fun name => ∃ m ∈ segments.flatMap fun m => m.unwrap.arguments, m.Ahead name)
      (probeChain part segments) := by
  have hne : ¬ segments.isEmpty = true := by
    cases segments with
    | nil => cases hmember
    | cons => simp
  have hsingle : (segments.length == 1) = false := by simp; omega
  have hsegments : Declares f (fun name => ∃ m ∈ segments.map Node.unwrap, ∃ a ∈ m.arguments, a.Ahead name)
      ((segments.map Node.unwrap).forM (Lowering.probeSegment part false)) := by
    refine forM hf fun m hm => ?_
    obtain ⟨k, hk, rfl⟩ := List.mem_map.mp hm
    exact probeSegment hf (hpart k hk)
  unfold Lowering.probeChain
  rw [if_neg hne, hsingle]
  refine congr hsegments fun name => ?_
  simp only [List.mem_map, List.mem_flatMap]
  constructor
  · rintro ⟨_, ⟨m, hm, rfl⟩, a, ha, hahead⟩
    exact ⟨a, ⟨m, hm, ha⟩, hahead⟩
  · rintro ⟨a, ⟨m, hm, ha⟩, hahead⟩
    exact ⟨m.unwrap, ⟨m, hm, rfl⟩, a, ha, hahead⟩

/-- Looking ahead into an expression goes on to its parts. -/
theorem probeNode (hpart : ∀ m ∈ n.partsAhead, Declares f (fun name => m.Ahead name) (part m)) :
    Declares f (fun name => n.Ahead name) (probeNode part n) := by
  have hnone : Declares f (fun _ => False) (Pure.pure ()) := pure hf fun _ => id
  have hparts (hn : n.asIdentifier? = none) {m : Lower Unit}
      (h : Declares f (fun name => ∃ m ∈ n.partsAhead, m.Ahead name) m) : Declares f (fun name => n.Ahead name) m :=
    congr h fun name => (Node.ahead_iff_parts hn).symm
  cases n with
  | identifier ident =>
    refine congr (bind hf (probeIdentifier hf hpart) hnone) fun name => ?_
    simp
  | call c =>
    refine hparts rfl (congr (bind hf (parts hf hpart) hnone) fun name => ?_)
    simp [Node.partsAhead]
  | member left right op lastFactor span =>
    refine hparts rfl ?_
    unfold Lowering.probeNode chainSegments
    unfold Node.partsAhead at hpart ⊢
    dsimp only at hpart ⊢
    cases hsegments : (Node.member left right op lastFactor span).segments with
    | error e => exact haltThen hf _ _ _ _
    | ok segments =>
      rw [hsegments] at hpart
      refine probeChain hf (Node.length_segments_member hsegments) fun m hm a ha => ?_
      exact hpart a (List.mem_flatMap.mpr ⟨m, hm, ha⟩)
  | list items dims guides span => exact hparts rfl (parts hf hpart)
  | range first last step span =>
    refine hparts rfl (congr (bind hf (hpart first (by simp [Node.partsAhead]))
      (bind hf (hpart last (by simp [Node.partsAhead])) (parts hf fun m hm => hpart m ?_))) fun name => ?_)
    · simp_all [Node.partsAhead]
    · simp [Node.partsAhead]
  | unary op operand span =>
    refine hparts rfl (congr (hpart operand (by simp [Node.partsAhead])) fun name => ?_)
    simp [Node.partsAhead]
  | binary left op right span =>
    refine hparts rfl ?_
    unfold Lowering.probeNode
    dsimp only
    split
    · exact halt hf _ _ _
    · refine congr (bind hf (hpart left (by simp [Node.partsAhead])) (hpart right (by simp [Node.partsAhead])))
        fun name => ?_
      simp [Node.partsAhead]
  | group inner dims guides span =>
    refine hparts rfl ?_
    unfold Lowering.probeNode
    unfold Node.partsAhead at hpart ⊢
    dsimp only at hpart ⊢
    split
    · next hmovable =>
      rw [if_pos hmovable] at hpart
      refine congr (hpart _ (List.mem_singleton_self _)) fun name => ?_
      simp
    · next hmovable =>
      rw [if_neg hmovable] at hpart
      refine congr (bind hf (hpart inner (List.mem_cons_self ..)) (parts hf fun m hm =>
        hpart m (List.mem_cons_of_mem _ hm))) fun name => ?_
      simp
  | literal => exact hparts rfl (pure hf (by simp [Node.partsAhead]))
  | defaultArg => exact hparts rfl (pure hf (by simp [Node.partsAhead]))
  | dynamic => exact hparts rfl (pure hf (by simp [Node.partsAhead]))
  | _ => exact halt hf _ _ _

end

theorem probeWithin (depth : Nat) {n : Node} (hn : n.weight ≤ depth) :
    Declares f (fun name => n.Ahead name) (probeWithin depth n) := by
  induction depth generalizing n with
  | zero => exact absurd n.weight_pos (by omega)
  | succ depth ih =>
    refine probeNode hf fun m hm => ih ?_
    have hlt := Node.weight_lt_of_mem_partsAhead hm
    omega

theorem probe (n : Node) : Declares f (fun name => n.Ahead name) (probe n) := probeWithin hf n.weight (Nat.le_refl _)

end Declares

/-- Looking ahead into an expression declares untyped variables of different names, which it came upon and which
awaited their declaration, and changes nothing else, apart from the diagnostic if it halts. If it does not halt,
no name that it came upon is left to be declared, and looking ahead once more changes nothing at all. -/
theorem probe_declares (hf : f.InCode) {s : State} (hs : f.Surveys s.session) (n : Node) :
    ∃ names : List String, names.Nodup ∧
      (∀ name ∈ names, n.Ahead name ∧ (sightFrom f s.session).Awaits name) ∧
      let t : State := { s with session := s.session.withUntyped f names }
      ((probe n f s = .ok () t ∧ probe n f t = .ok () t ∧
          ∀ name, n.Ahead name → (sightFrom f s.session).Awaits name → name ∈ names) ∨
        ∃ d, probe n f s = .error (.halt d) { t with session := t.session.report d }) := by
  obtain ⟨names, hnodup, hnames, hend⟩ := Declares.probe hf n s hs
  refine ⟨names, hnodup, hnames, hend.imp_left fun ⟨hrun, hdone⟩ => ⟨hrun, ?_, fun name hahead hname => ?_⟩⟩
  · have hsettles : (sightFrom f (s.session.withUntyped f names)).SettlesAhead n := by
      intro name hahead hforward
      refine Decidable.or_iff_not_imp_left.mpr fun hbound => Option.isSome_iff_ne_none.mpr fun hclass => ?_
      exact hdone name hahead ⟨hforward, Decidable.not_not.mp hbound, hclass⟩
    exact Idle.probe (s := { s with session := s.session.withUntyped f names }) (hs.withUntyped hf names).looksOut
      ⟨hsettles, n.weight, f, s, (), _, hrun⟩
  · refine Decidable.byContradiction fun hnotin => hdone name hahead ?_
    exact (awaits_withUntyped hf hs hnodup (fun name hname => (hnames name hname).2) name).mpr ⟨hname, hnotin⟩

/-- Looking ahead into `x + x` declares `x` once, where the unit assigns it later. -/
theorem sum_ahead_declares :
    let x : Node := .identifier (.plain "x" .nil)
    let n : Node := .binary x .add x .nil
    let f : Frame := { block := 0, scope := .global, dialect := .associative, forward := ["x"] }
    let s : State := { session := (Session.compile (.new {}) [] .associative).2 }
    let t : State := { s with session := s.session.withUntyped f ["x"] }
    probe n f s = .ok () t ∧ probe n f t = .ok () t := by
  intro x n f s t
  have hs : f.Surveys s.session := by
    refine ⟨.of_global rfl (by decide +kernel), Session.Used.indexed (.compile [] .associative (.new {}))⟩
  have hawaits : (sightFrom f s.session).Awaits "x" := ⟨by decide, by decide +kernel, by decide +kernel⟩
  obtain ⟨⟨⟩, u, hends⟩ := ok_of_matches (m := probe n) (f := f) (s := s) (by decide +kernel)
  obtain ⟨names, hnodup, hnames, ⟨hrun, hagain, hall⟩ | ⟨d, hrun⟩⟩ :=
    probe_declares (f := f) ⟨rfl, by decide⟩ hs n
  · have hx : n.Ahead "x" := .part (m := x) (by simp [n, Node.partsAhead]) (.alone rfl rfl)
    have honly (name : String) (hname : name ∈ names) : name = "x" := by
      have hroot := (hnames name hname).1.mem_roots
      have hroots : n.roots true = ["x", "x"] := by decide
      simpa [hroots] using hroot
    obtain rfl : names = ["x"] := by
      cases names with
      | nil => exact absurd (hall "x" hx hawaits) (List.not_mem_nil)
      | cons name rest =>
        obtain rfl := honly name (List.mem_cons_self ..)
        cases rest with
        | nil => rfl
        | cons name' rest =>
          obtain rfl := honly name' (by simp)
          simp at hnodup
    exact ⟨hrun, hagain⟩
  · cases hends.symm.trans hrun

end Lowering

end Diglot
