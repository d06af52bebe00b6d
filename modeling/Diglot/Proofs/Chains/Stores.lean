import Diglot.Proofs.Chains.HandsOn
import Diglot.Proofs.Paths.Target

/-! # Reading and storing along a split chain

`Fetches`, `Stashes` and `Settles` tell what reading a variable, storing into a new one, and storing into the target do.
A value without made-up names reads no variable that is made up (`fetches_old`), and the target is shown as
`Sight.Targets` says.
-/

set_option autoImplicit false

namespace Diglot

namespace Lowering

variable {α : Type} {f : Frame} {s t u w : State} {y : Temporary} {n : GraphNode} {span : Span}

/-! ## Reading what is handed on -/

theorem isAside_of_isNeutral {i : Instruction} (h : i.IsNeutral) : i.IsAside := by
  intro o ho
  have hneutral := h o ho
  simp only [Operand.isNeutral, Bool.and_eq_true, Bool.not_eq_true'] at hneutral
  exact hneutral.1

/-- From `s` to `t` instructions were emitted that address no variable, and nothing was declared or recorded. -/
structure Idles (f : Frame) (s t : State) : Prop where
  kept : Kept true s t
  code : Wrote Instruction.IsAside f.block s.session t.session

theorem Idles.refl (f : Frame) (s : State) : Idles f s s := ⟨.refl s, .ofSilent (.refl _)⟩

theorem Idles.trans (h : Idles f s t) (h' : Idles f t u) : Idles f s u :=
  ⟨h.kept.trans h'.kept, h.code.trans h'.code⟩

theorem Idles.names (h : Idles f s t) : s.session.SameNames t.session := (h.kept.inert rfl).1

theorem not_all_isAside : ¬ ∀ i : Instruction, i.IsAside :=
  fun hall => not_all_touches (.new {}) (fun _ => False) fun i => .inl (hall i)

theorem idles_of_run {m : Lower α} {a : α} (ht : Tame true false m) (hm : Composed false False Instruction.IsNeutral m)
    (hrun : m f s = .ok a t) : Idles f s t := by
  refine ⟨ht.keeps_ok hrun, ?_⟩
  have hcode := ((hm f s nofun).mono fun _ => isAside_of_isNeutral).wrote not_all_isAside
  rwa [hrun] at hcode

/-- A chain is lowered segment by segment and then recorded; what is emitted before and behind addresses no
variable. -/
theorem lowerChain_idles {part : LowerPart} {segments : List Node} {type : Ty} (hne : segments ≠ [])
    (hrun : lowerChain part segments span f s = .ok type t) :
    ∃ u c w x, Idles f s u ∧
      lowerSegments part true (segments.map Node.unwrap) (.start (segments.length == 1)) f u = .ok c w ∧
      Idles f w x ∧ recordRead c.path c.hasCall f x = .ok () t := by
  rw [lowerChain_eq part hne] at hrun
  obtain ⟨c, x, hcursor, hrun⟩ := bind_eq_ok.mp hrun
  obtain ⟨⟨⟩, t', hrecord, hrun⟩ := bind_eq_ok.mp hrun
  cases hrun
  have hsegments {u : State} (hu : Idles f s u) (hrun : (do
      let c ← lowerSegments part true (segments.map Node.unwrap)
        (.start ((segments.map Node.unwrap).length == 1))
      if 1 < c.depth then
        let _ ← emitPushlist c.depth c.afterCall span
      return c : Lower Cursor) f u = .ok c x) :
      ∃ u w, Idles f s u ∧
        lowerSegments part true (segments.map Node.unwrap) (.start (segments.length == 1)) f u = .ok c w ∧
        Idles f w x := by
    rw [List.length_map] at hrun
    obtain ⟨d, w, hwalk, hrun⟩ := bind_eq_ok.mp hrun
    rw [run_ite] at hrun
    split at hrun
    · obtain ⟨_, y, hlist, hrun⟩ := bind_eq_ok.mp hrun
      cases hrun
      exact ⟨u, w, hu, hwalk, idles_of_run (.emitPushlist _ _ _) (Neutral.emitPushlist _ _ _) hlist⟩
    · cases hrun
      exact ⟨u, _, hu, hwalk, .refl f _⟩
  suffices hsteps : ∃ u w, Idles f s u ∧
      lowerSegments part true (segments.map Node.unwrap) (.start (segments.length == 1)) f u = .ok c w ∧
      Idles f w x by
    obtain ⟨u, w, hu, hwalk, hx⟩ := hsteps
    exact ⟨u, c, w, x, hu, hwalk, hx, hrecord⟩
  obtain ⟨on, u, hwanted, hcursor⟩ := bind_eq_ok.mp hcursor
  have hu : Idles f s u := idles_of_run .guidesWanted .guidesWanted hwanted
  rw [run_ite] at hcursor
  split at hcursor
  · obtain ⟨_, u', hguides, hcursor⟩ := bind_eq_ok.mp hcursor
    exact hsegments (hu.trans (idles_of_run (.emitGuides _) (Neutral.emitGuides _) hguides)) hcursor
  · exact hsegments hu hcursor

/-- The code that a value begins with: where a variable was handed on to it, the variable is pushed. -/
inductive Leads : Option Temporary → List Instruction → Prop where
  | root : Leads none []
  | load {y : Temporary} {guides : List Instruction} {push : Instruction} : (∀ i ∈ guides, i.IsAside) →
      push.Loads y.symbol → Leads (some y) (guides ++ [push])

/-- From `w` to `t` a value was lowered. The variable that was handed on to it, if there is one, is pushed first and
becomes an input; no others that are made up from the number `k` on are accessed. -/
structure Fetches (k id : Nat) (source : Option Temporary) (w t : State) : Prop where
  names : w.session.SameNames t.session
  code : ∃ lead reads, w.session.Puts id (lead ++ reads) t.session ∧ Leads source lead ∧
    ∀ i ∈ reads, w.session.Avoids k i
  input : ∀ y ∈ source, ∃ p ∈ t.node.dependencies, p.head? = some y.segment

/-- Whatever is recorded, variables of a kind are accessed. -/
def Harvest.accessing (E : SymbolRef → Prop) : Harvest := ⟨fun _ => True, fun _ => True, E⟩

theorem loads_readInstruction {i : Instruction} {isSingle : Bool} {x : Symbol}
    (h : i.unmarked = readInstruction f isSingle x 0) : i.Loads x := by
  have hof {j : Instruction} (hj : j.unmarked = j) (h : i.unmarked = j) : i.IsOf j :=
    Instruction.isOf_of_unmarked (h.trans hj.symm)
  unfold readInstruction at h
  split at h
  · exact .inl ⟨_, hof rfl h⟩
  · exact .inr ⟨_, hof rfl h⟩

/-- A made-up variable that stands before a chain is read first. -/
theorem fetches_temporary {k : Nat} {rest : List Node} {span' : Span} {type : Ty} (hs : f.Proceeds w)
    (hanchor : f.anchor = none) (htracked : f.isTracked = true)
    (hshows : (sightFrom f w.session).Shows (temporaryName y.number) y.ref y.symbol)
    (hrest : ∀ c, Gathers (sightFrom f w.session) (.accessing (w.session.IsOld k))
      (lowerSegments expression false (rest.map Node.unwrap) c))
    (hrun : lowerChain expression (.identifier (.plain (temporaryName y.number) span) :: rest) span' f w =
      .ok type t) : Fetches k f.block (some y) w t := by
  obtain ⟨u, c, x, x', hguides, hwalk, hends, hrecord⟩ := lowerChain_idles (List.cons_ne_nil _ _) hrun
  have hu : f.Proceeds u := ⟨hs.looksOut.congr hguides.names, hguides.names.isWatching.trans hs.isWatching,
    (congrArg GraphNode.isSealed (hguides.kept.inert rfl).2).trans hs.isOpen⟩
  have hshows' := hshows.congr hguides.names
  -- The root of the chain is the variable.
  generalize ((Node.identifier (.plain (temporaryName y.number) span) :: rest).length == 1) = isSingle at hwalk
  obtain ⟨u', htemporary, hmoved⟩ := run_lowerTemporary expression span hu hanchor hshows' isSingle
  obtain ⟨d, z, hfirst, hwalk⟩ := bind_eq_ok.mp hwalk
  obtain ⟨d', z', hroot, hend⟩ := bind_eq_ok.mp htemporary
  cases hend
  cases hfirst.symm.trans hroot
  have htarget : (sightFrom f u.session).rootTarget (temporaryName y.number) = .symbol y.ref := by
    have hnone : (sightFrom f u.session).frame.anchor = none := hanchor
    simp [Sight.rootTarget, hnone, hshows'.found]
  have hdims : (Identifier.plain (temporaryName y.number) span).dims = [] := rfl
  obtain ⟨c', z', hlower, hpasses⟩ := passes_lowerSymbol hu.looksOut expression hdims hshows'.symbol isSingle
  have hidentifier := (lowerIdentifier_eq hu.looksOut expression (isThis_temporaryName y.number span) rfl htarget).trans hlower
  cases hfirst.symm.trans hidentifier
  have hread := hrest _ f.isGuided _ _ x (hguides.names.trans hpasses.names) hwalk
  have hrecorded := (Gathers.recordRead (H := .accessing fun _ => False) trivial _).ok hrecord
  have hnames := (hguides.names.trans hpasses.names).trans (hread.names.trans (hends.names.trans hrecorded.names))
  obtain ⟨front, p, -, -, hpath, -⟩ := (Returns.lowerSegments false _).ok hwalk
  refine ⟨hnames, ?_, ?_⟩
  · have hcan : w.session.CanEmit f.block := hs.looksOut.canEmit
    have hcan₁ := hcan.congr hguides.names
    have hcan₂ := hcan₁.congr hpasses.names
    have hcan₃ := hcan₂.congr hread.names
    obtain ⟨guides, hputs₁, hguides'⟩ := hguides.code.puts hcan
    obtain ⟨added, hputs₂, hadded⟩ := hpasses.puts
    obtain ⟨push, rfl, hpush⟩ := List.map_eq_singleton_iff.mp hadded
    obtain ⟨reads, hputs₃, hreads⟩ := hread.code.puts hcan₂
    obtain ⟨ends, hputs₄, hends'⟩ := hends.code.puts hcan₃
    obtain ⟨records, hputs₅, hrecords⟩ := hrecorded.code.puts (hcan₃.congr hends.names)
    refine ⟨guides ++ [push], reads ++ (ends ++ records), ?_, .load hguides' (loads_readInstruction hpush), fun i hi => ?_⟩
    · have hputs := hputs₁.trans (hputs₂.trans (hputs₃.trans (hputs₄.trans hputs₅)))
      simpa only [List.append_assoc] using hputs
    · rcases List.mem_append.mp hi with hi | hi
      · exact hreads i hi
      rcases List.mem_append.mp hi with hi | hi
      · exact Session.avoids_of_isAside (hends' i hi)
      · obtain hnone | ⟨_, _, hr, -⟩ := hrecords i hi
        · exact Session.avoids_of_isAside hnone
        · exact hr.elim
  · rintro _ ⟨⟩
    exact ⟨c.path, mem_of_recordRead htracked (by simp [hpath]) hrecord, by simp [hpath, Temporary.segment]⟩

/-! ## Values without made-up names -/

section
variable {v : Sight} {k : Nat} {value node : Node} {segments : List Node} (hv : v.LooksAround) (hl : v.session.Listed)
  (hclasses : v.session.SparesClasses k)
include hl hclasses

theorem admits_old (hplain : ∀ ident, Node.identifier ident ∈ segments.map Node.unwrap → IsPlainName ident.name) :
    v.Admits (.accessing (v.session.IsOld k)) segments := by
  refine ⟨⟨fun _ _ => trivial, fun _ _ _ _ => trivial⟩, fun n hn r hr => hr.isOld hl hclasses fun ident hident => ?_⟩
  exact hplain ident (hident ▸ hn)

include hv

/-- An expression without made-up names accesses no variables of such names. -/
theorem gathers_old (h : node.IsNamedPlain) : Gathers v (.accessing (v.session.IsOld k)) (expression node) :=
  .expression hv node fun segments hchain => admits_old hl hclasses (h segments hchain)

/-- Nor do some of the segments of such a chain. -/
theorem gathers_oldSegments (hpath : value.isPath = true) (hsegments : value.segments = .ok segments)
    (h : value.IsNamedPlain) {l : List Node} (hsub : l ⊆ segments) (isRoot : Bool) (c : Cursor) :
    Gathers v (.accessing (v.session.IsOld k)) (lowerSegments expression isRoot (l.map Node.unwrap) c) := by
  refine .lowerSegments hv isRoot c (fun n hn m hm => ?_) (fun n hn r hr => ?_) fun _ _ _ _ => trivial
  · obtain ⟨n', hn', rfl⟩ := List.mem_map.mp hn
    refine gathers_old hv hl hclasses fun inside hinside => h inside ?_
    exact Node.hasChain_inside hpath hsegments (hsub hn') hm hinside
  · have hadmits := admits_old hl hclasses (h segments (.whole hpath hsegments))
    exact hadmits.symbol n (List.map_subset _ hsub hn) r hr

end

/-- The first factor of a split chain has no made-up names if the chain has none. -/
theorem isNamedPlain_first {value factor : Node} {segments front : List Node} (hpath : value.isPath = true)
    (hsegments : value.segments = .ok segments) (h : value.IsNamedPlain) (hfront : front <+: segments)
    (hfactor : front = [factor] ∨ ∃ root second, front = [root, second] ∧ factor = .member root second .dot false span) :
    factor.IsNamedPlain := by
  have hroot {root : Node} {rest : List Node} (hfront : root :: rest <+: segments) {inside : List Node}
      (hinside : root.HasChain inside) : value.HasChain inside := by
    obtain ⟨behind, rfl⟩ := hfront
    exact Node.hasChain_root hpath hsegments hinside
  intro inside hinside
  obtain rfl | ⟨root, second, rfl, rfl⟩ := hfactor
  · exact h inside (hroot hfront hinside)
  · have hsub := hfront.subset
    obtain rfl | hchain | ⟨n, hn, m, hm, hchain⟩ := hasChain_member
      (Node.segments_of_mem_segments hsegments (hsub (List.mem_cons_self ..)))
      (Node.segments_of_mem_segments hsegments (hsub (List.mem_cons_of_mem _ (List.mem_singleton.mpr rfl)))) hinside
    · exact fun ident hident => h segments (.whole hpath hsegments) ident (List.map_subset _ hsub hident)
    · exact h inside (hroot hfront hchain)
    · exact h inside (Node.hasChain_inside hpath hsegments (hsub hn) hm hchain)

/-- A value without made-up names fetches nothing that was made up. -/
theorem fetches_old {k : Nat} {node : Node} {type : Ty} (hlooks : f.LooksOut w.session) (hl : w.session.Listed)
    (hclasses : w.session.SparesClasses k) (h : node.IsNamedPlain) (hrun : expression node f w = .ok type t) :
    Fetches k f.block none w t := by
  have hgathered := (gathers_old (v := sightFrom f w.session) ⟨rfl⟩ hl hclasses h).ok hrun
  obtain ⟨code, hputs, hcode⟩ := hgathered.code.puts hlooks.canEmit
  exact ⟨hgathered.names, ⟨[], code, hputs, .root, hcode⟩, fun y hy => absurd hy (Option.not_mem_none y)⟩

/-! ## Storing what is handed on -/

/-- From `w` to `t` the value on top was stored into a variable that is made up, and the statement ended with its
node. -/
structure Stashes (f : Frame) (y : Temporary) (w t : State) (n : GraphNode) : Prop where
  code : ∃ pushes pop ends, w.session.Puts f.block (pushes ++ pop :: ends) t.session ∧ pop.Stores y.symbol ∧
    (∀ i ∈ pushes, i.IsAside) ∧ ∀ i ∈ ends, i.IsAside
  isTemporary : n.isTemporary = w.node.isTemporary
  updated : n.updated = some [y.segment]
  inputs : ∀ p ∈ w.node.dependencies, p ∈ n.dependencies
  declares : f.Declares (fun name => name = temporaryName y.number) w.session t.session
  isOnly : y.IsOnly t.session
  shows : (sightFrom f t.session).Shows (temporaryName y.number) y.ref y.symbol

/-- Storing into a name that no symbol has declares the one variable of that name. -/
theorem stashes_of_assign {g : Frame} (hown : f.IsOwn) (hvoid : f.scope.classScope ≠ some Primitive.void.uid)
    (hg : g.block = f.block) {k : Nat} (hlooks : f.LooksOut w.session) (hl : w.session.Listed)
    (hnone : w.session.HasNone (temporaryName k)) {type : Ty} {path : Path} {pc startPc endPc : Nat} {message : String}
    (hassign : assignTo (.identifier (.plain (temporaryName k) span)) type f w = .ok path u)
    (hdepx : emitDepx g u = .ok pc t) :
    ∃ y : Temporary, y.number = k ∧ Stashes f y w { t with session := t.session.note .trace .code message }
      { u.node with startPc, endPc, updated := some path } := by
  change (if (Identifier.plain (temporaryName k) span).isThis then assignTo.invalid span
    else storeIdentifier (.plain (temporaryName k) span) type) f w = .ok path u at hassign
  rw [isThis_temporaryName, if_neg Bool.false_ne_true] at hassign
  obtain ⟨r, w', x, pc', htarget, hx, hstore, rfl⟩ := storeIdentifier_steps rfl hassign
  have hfree : (sightFrom f w.session).resolve (temporaryName k) = .unbound := Session.HasNone.resolve hnone
  obtain ⟨r', x', w'', hdeclared, hentered⟩ :=
    run_targetSymbol_unbound (.plain (temporaryName k) span) hown hlooks hfree type
  cases htarget.symm.trans hdeclared
  obtain rfl : x = x' := Option.some.inj (hx.symm.trans hentered.symbol)
  have hlooks' := hentered.looksOut hlooks
  obtain ⟨hstored, pushes, pop, hputs, hpop, hpushes⟩ := puts_emitStore hlooks'.canEmit hstore
  obtain ⟨hended, i, hputs', hi⟩ := puts_emitDepx (hg ▸ (hlooks'.congr hstored).canEmit) hdepx
  rw [hg] at hputs'
  have hnoted : t.session.SameNames (t.session.note .trace .code message) := ⟨rfl, rfl, rfl, rfl, rfl, rfl⟩
  have hnames := (hstored.trans hended).trans hnoted
  have hname : x.name = temporaryName k := by
    obtain ⟨hd, -, -, rfl⟩ := hentered.place
    rfl
  have hallocated : w.session.Puts f.block [] w'.session := puts_of_silent (fun _ _ hr => (Yields.targetSymbol _ _ hr).course) hlooks.canEmit htarget
  have hkept : u.node = w.node := by
    have hemits : Tame true false (emitStore x 0 (Identifier.plain (temporaryName k) span).span) := .emitStore _ _ _
    exact ((hemits.keeps_ok hstore).inert rfl).2.trans (targetSymbol_node htarget)
  refine ⟨⟨k, r, x⟩, rfl, ⟨pushes, pop, [i], ?_, hpop, hpushes, ?_⟩, ?_, rfl, ?_, ?_, ?_, ?_⟩
  · have hend : t.session.Puts f.block [] (t.session.note .trace .code message) := Session.puts_of_stream rfl
    have hall := ((hallocated.trans hputs).trans hputs').trans hend
    rwa [List.nil_append, List.append_nil, List.append_assoc] at hall
  · exact fun j hj => List.mem_singleton.mp hj ▸ hi
  · have hsame := congrArg GraphNode.isTemporary hkept
    exact hsame
  · intro p hp
    have hdependencies := congrArg GraphNode.dependencies hkept
    rwa [← hdependencies] at hp
  · exact ((Frame.Declares.refl (fun name => name = temporaryName k) hlooks hl).entered hentered rfl).congr hnames
  · refine ⟨(hnames.symbol?_eq r).trans hx, hname, fun r' z hz hzname => ?_⟩
    rw [hnames.symbol?_eq] at hz
    obtain hold | ⟨hsame, -⟩ := hentered.symbol_cases hz
    · exact absurd hzname (hnone.symbol_ne hold)
    · exact hsame
  · have hself := hentered.resolve_self hown hvoid hlooks rfl hfree
    exact Sight.Shows.congr ⟨hself, hx⟩ hnames

/-! ## The target -/

/-- The path is what a store into the target tells. A name shows the variable that it stands for, if it may be used, and
a chain shows its segments as `targetPath` reads them. -/
inductive Sight.Targets (v : Sight) : Node → Path → Prop where
  | name {ident : Identifier} {r : SymbolRef} {x : Symbol} : v.session.symbol? r = some x → x.name = ident.name →
      v.resolve ident.name ≠ .unbound → (∀ r', v.resolve ident.name = .found r' → r' = r) →
      v.Targets (.identifier ident) [.ofName ident.name (some r) x.classScope]
  | chain {target : Node} {segments : List Node} {property : Identifier} :
      target.segments = .ok (segments ++ [.identifier property]) → segments ≠ [] →
      v.Targets target (v.targetPath segments property)

theorem Sight.Targets.congr {a b : Session} {target : Node} {path : Path} (h : (sightFrom f a).Targets target path)
    (hnames : a.SameNames b) : (sightFrom f b).Targets target path := by
  cases h with
  | name hx hname hbound hfound =>
    rw [← resolve_sightFrom hnames] at hbound hfound
    exact .name ((hnames.symbol?_eq _).trans hx) hname hbound hfound
  | chain hsegments hne =>
    rw [← targetPath_sightFrom hnames]
    exact .chain hsegments hne

/-- Whether reads are recorded makes no difference to what is written. -/
theorem Sight.Targets.tracked {a : Session} {on : Bool} {target : Node} {path : Path}
    (h : (sightFrom { f with isTracked := on } a).Targets target path) : (sightFrom f a).Targets target path := by
  cases h with
  | name hx hname hbound hfound => exact .name hx hname hbound hfound
  | @chain _ segments property hsegments hne =>
    have hsame : (sightFrom { f with isTracked := on } a).targetPath segments property =
        (sightFrom f a).targetPath segments property := by
      unfold targetPath
      rw [passAll_tracked]
      rfl
    rw [hsame]
    exact .chain hsegments hne

/-- What a store goes to has the name of the target. -/
theorem targetSymbol_named (hown : f.IsOwn) {ident : Identifier} {type : Ty} {r : SymbolRef}
    (hlooks : f.LooksOut w.session) (hl : w.session.Listed) (hrun : targetSymbol ident type f w = .ok r u) :
    ∃ x, u.session.symbol? r = some x ∧ x.name = ident.name := by
  have hdeclared {s : State} (hs : f.LooksOut s.session)
      (hrun : allocate { name := ident.name, type := declaredType type } f s = .ok r u) :
      ∃ x, u.session.symbol? r = some x ∧ x.name = ident.name := by
    obtain ⟨r', x, u', hallocate, hentered⟩ := run_allocate_entered hown hs { name := ident.name, type := declaredType type }
    cases hrun.symm.trans hallocate
    refine ⟨x, hentered.symbol, ?_⟩
    obtain ⟨hd, -, -, rfl⟩ := hentered.place
    rfl
  replace hrun := sight_bind_ok hrun
  cases hr : (sightFrom f w.session).resolve ident.name with
  | found r' =>
    rw [hr] at hrun
    cases hrun
    exact Sight.named_of_resolve hl hr
  | inaccessible r' =>
    rw [hr] at hrun
    obtain ⟨⟨⟩, z, hreport, hrun⟩ := bind_eq_ok.mp hrun
    cases hreport
    refine hdeclared ?_ hrun
    exact hlooks.congr ⟨rfl, rfl, rfl, rfl, rfl, rfl⟩
  | unbound =>
    rw [hr] at hrun
    exact hdeclared hlooks hrun

/-- From `w` to `u` the value on top was stored into the target, which told the path, and no variable was accessed that
is made up from the number `k` on. -/
structure Settles (f : Frame) (k : Nat) (target : Node) (path : Path) (w u : State) : Prop where
  code : ∃ code, w.session.Puts f.block code u.session ∧ ∀ i ∈ code, u.session.Avoids k i
  targets : (sightFrom f u.session).Targets target path
  declares : f.Declares IsPlainName w.session u.session
  inputs : ∀ p ∈ w.node.dependencies, p ∈ u.node.dependencies
  isTemporary : u.node.isTemporary = w.node.isTemporary

/-- Code that accesses old variables alone avoids the ones that are made up from a number on. -/
theorem Gathered.puts {k : Nat} {s : State} (h : Gathered (sightFrom f s.session) (.accessing (s.session.IsOld k)) s u)
    (hs : f.LooksOut s.session) :
    ∃ code, s.session.Puts f.block code u.session ∧ ∀ i ∈ code, u.session.Avoids k i := by
  obtain ⟨code, hputs, hcode⟩ := h.code.puts hs.canEmit
  have hsame (i : Instruction) (hi : i ∈ code) : s.session.Avoids k i := hcode i hi
  exact ⟨code, hputs, fun i hi => (hsame i hi).kept fun r x hx => (h.names.symbol?_eq r).trans hx⟩

section
variable {k : Nat} {type : Ty} {path : Path} (hlooks : f.LooksOut w.session) (hl : w.session.Listed)
  (hclasses : w.session.SparesClasses k)
include hlooks hl hclasses

/-- Storing into a name finds or declares its variable, and the path is that variable. -/
theorem stored_name (hf : f.HasStatements) {ident : Identifier} (hplain : (Node.identifier ident).IsNamedPlain)
    (hname : IsPlainName ident.name) (hrun : assignTo (.identifier ident) type f w = .ok path u) :
    (∃ code, w.session.Puts f.block code u.session ∧ ∀ i ∈ code, u.session.Avoids k i) ∧
      (sightFrom f u.session).Targets (.identifier ident) path := by
  unfold assignTo at hrun
  dsimp only at hrun
  rw [run_ite] at hrun
  split at hrun
  · cases hrun
  obtain ⟨r, w', hfound, hrun⟩ := bind_eq_ok.mp hrun
  have hdeclared := (Frame.Declares.targetSymbol hf.own ident type hname).ok (.refl IsPlainName hlooks hl) hfound
  have hsilent : w.session.Puts f.block [] w'.session := by
    refine puts_of_silent ?_ hlooks.canEmit hfound
    refine .bind .sight fun v => ?_
    split
    · exact .pure _
    · exact .bind (.report rfl _ _) fun _ => .allocate _
    · exact .allocate _
  obtain ⟨x, hx, hxname⟩ := targetSymbol_named hf.own hlooks hl hfound
  have hr : w'.session.IsOld k r := ⟨x, hx, hxname ▸ hname.isSpent k⟩
  have hclasses' : w'.session.SparesClasses k := fun j hj i c hc => hclasses j hj i c (hdeclared.classes ▸ hc)
  have hstored := (Gathers.storeAt (v := sightFrom f w'.session) ⟨rfl⟩ hr
    fun d hd segments hchain => admits_old hdeclared.listed hclasses' (hplain segments (.operand hd hchain))).ok hrun
  obtain ⟨code, hputs, hcode⟩ := hstored.puts hdeclared.looksOut
  refine ⟨⟨code, by simpa using hsilent.trans hputs, hcode⟩, ?_⟩
  obtain ⟨x', w'', hget, hrun⟩ := bind_eq_ok.mp hrun
  rw [run_getSymbol, hx] at hget
  cases hget
  have hpath : Returns f (do
      Lowering.lowerDims Lowering.expression ident.dims
      let dims := ident.dims.length
      if 0 < dims then
        let literals := literalDims (← read).dialect ident.dims
        Lowering.recordIndexing literals
        Lowering.recordSplitDims literals true
      let _ ← Lowering.emitStore x dims ident.span
      return ([.ofName ident.name (some r) x.classScope] : Path)) fun p =>
        p = [.ofName ident.name (some r) x.classScope] :=
    Returns.after fun _ => .ite (.withFrame (Returns.after fun _ => Returns.after fun _ => Returns.after fun _ => .pure rfl))
      (Returns.after fun _ => .pure rfl)
  obtain rfl := hpath.ok hrun
  obtain ⟨hbound, hself⟩ := targetSymbol_resolves hf hfound
  exact Sight.Targets.congr (.name hx hxname hbound hself) hstored.names

/-- Storing into a chain accesses what its segments name, and the path is that of the chain. -/
theorem stored_chain {left right : Node} {op : Operator} {lastFactor : Bool} {span : Span}
    (hplain : (Node.member left right op lastFactor span).IsNamedPlain)
    (hrun : assignTo (.member left right op lastFactor span) type f w = .ok path u) :
    (∃ code, w.session.Puts f.block code u.session ∧ ∀ i ∈ code, u.session.Avoids k i) ∧
      (sightFrom f u.session).Targets (.member left right op lastFactor span) path := by
  obtain ⟨segments, w', hchain, hrun⟩ := bind_eq_ok.mp hrun
  obtain ⟨hsegments, rfl⟩ := chainSegments_run hchain
  cases hlast : segments.getLast? with
  | none =>
    rw [hlast] at hrun
    cases hrun
  | some last =>
  rw [hlast] at hrun
  cases last with
  | identifier property =>
    obtain ⟨front, rfl⟩ := List.getLast?_eq_some_iff.mp hlast
    rw [List.dropLast_concat] at hrun
    obtain rfl := storeMember_path hrun
    have hne : front ≠ [] := by
      rintro rfl
      have hlength := Node.length_segments_member hsegments
      simp at hlength
    have hgathers := (Gathers.storeMember (v := sightFrom f w.session) (H := .accessing (w.session.IsOld k)) ⟨rfl⟩
      (fun d hd inside hinside => ?_) (fun cls r hr => Sight.isOld_of_inClass hl hclasses hr) ?_ span).ok hrun
    · exact ⟨hgathers.puts hlooks, .congr (.chain hsegments hne) hgathers.names⟩
    · have hmem := List.mem_of_getLast? hlast
      exact admits_old hl hclasses (hplain inside (Node.hasChain_inside rfl hsegments hmem hd hinside))
    · exact gathers_oldSegments ⟨rfl⟩ hl hclasses rfl hsegments hplain (List.subset_append_left ..) false _
  | _ => cases hrun

theorem settles_of_assign (hf : f.HasStatements) {target : Node} (hplain : target.IsNamedPlain)
    (hrun : assignTo target type f w = .ok path u) : Settles f k target path w u := by
  have henriched := assignTo_enriched (H := .any) (fun _ => trivial) (fun segments _ => Harvest.allows_any _ segments) hrun
  have htarget : ∀ ident, target = .identifier ident → IsPlainName ident.name := by
    rintro ident rfl
    exact hplain _ (.whole rfl rfl) ident (List.mem_singleton.mpr rfl)
  have hdeclared := (Frame.Declares.assignTo hf.own target type htarget).ok (.refl IsPlainName hlooks hl) hrun
  have hsettles : ((∃ code, w.session.Puts f.block code u.session ∧ ∀ i ∈ code, u.session.Avoids k i) ∧
      (sightFrom f u.session).Targets target path) → Settles f k target path w u := fun ⟨hcode, htargets⟩ =>
    ⟨hcode, htargets, hdeclared, fun p hp => henriched.mem hp, henriched.isTemporary⟩
  cases target with
  | identifier ident => exact hsettles (stored_name hlooks hl hclasses hf hplain (htarget ident rfl) hrun)
  | member left right op lastFactor span => exact hsettles (stored_chain hlooks hl hclasses hplain hrun)
  | _ => cases hrun

end

end Lowering

end Diglot
