import Diglot.Proofs.Chains.Stores

/-! # How the value of a split chain is handed on

The factors of a split chain are lowered one after the other. Each one reads the variable that the factor before it
stored, and stores its own value into a new one; at the end the last variable goes to the target.

- `Relays` and `Arrives` tell what the statements of a factor and of the target do.
- `Relayed` is what a run of factors leaves behind; each factor comes before those behind it (`Relayed.cons`), so that
  every run of them does so (`Factors.relayed`).
-/

set_option autoImplicit false

namespace Diglot

namespace Lowering

variable {α : Type} {f : Frame} {s t u w : State} {y : Temporary} {n : GraphNode} {span : Span}

/-! ## Factors -/

/-- A made-up name is not plain. -/
theorem not_isPlainName_temporaryName (k : Nat) : ¬ IsPlainName (temporaryName k) := by
  intro h
  rw [IsPlainName, isTemporaryName_temporaryName] at h
  cases h

/-- From `s` to `t` a factor was lowered: it read what was handed on to it, and stored its value into a variable that
is made up. -/
structure Relays (f : Frame) (k : Nat) (source : Option Temporary) (y : Temporary) (s t : State) (n : GraphNode) :
    Prop where
  code : ∃ lead before pop ends, s.session.Puts f.block (lead ++ (before ++ pop :: ends)) t.session ∧
    Leads source lead ∧ (∀ i ∈ before, t.session.Avoids k i) ∧ pop.Stores y.symbol ∧
    ∀ i ∈ ends, t.session.Avoids k i
  isTemporary : n.isTemporary = true
  updated : n.updated = some [y.segment]
  input : ∀ z ∈ source, ∃ p ∈ n.dependencies, p.head? = some z.segment
  declares : f.Declares (fun name => IsPlainName name ∨ name = temporaryName y.number) s.session t.session
  isOnly : y.IsOnly t.session
  shows : (sightFrom f t.session).Shows (temporaryName y.number) y.ref y.symbol

/-- Looking ahead declares plain names only, and emits nothing. -/
theorem declares_of_probe {a : Session} (hown : f.IsOwn) (hplain : f.IsPlain) {anchor : Option Nat} {value : Node}
    (hs : f.Declares IsPlainName a s.session) (hrun : probe value { f with anchor } s = .ok () t) :
    f.Declares IsPlainName a t.session ∧ s.session.Puts f.block [] t.session ∧
      t.session.isWatching = s.session.isWatching := by
  have hprobed := (Frame.Declares.probe (f := { f with anchor }) hown hplain value).ok (hs.site rfl) hrun
  refine ⟨hprobed.site rfl, ?_, ((Gentle.ofMild (.probe value)).ok hrun).session.isWatching⟩
  exact puts_of_silent (f := { f with anchor }) (.probe value) hs.looksOut.canEmit hrun

/-- A statement of a split chain whose target is made up. -/
theorem relays_of_statement (hf : f.HasStatements) (hplain : f.IsPlain) {anchor : Option Nat} {k number : Nat}
    {source : Option Temporary} {factor : Node} {isLast : Bool} (hlooks : f.LooksOut s.session) (hl : s.session.Listed)
    (hwatching : s.session.isWatching = false) (hnone : s.session.HasNone (temporaryName number))
    (hread : ∀ w type w', f.Declares IsPlainName s.session w.session → { f with anchor }.Proceeds w →
      expression factor { f with anchor, isTracked := true } w = .ok type w' → Fetches k f.block source w w')
    (hrun : graphStatement (.identifier (.plain (temporaryName number) span)) factor span true isLast { f with anchor } s =
      .ok n t) : ∃ y : Temporary, y.number = number ∧ Relays f k source y s t n := by
  obtain ⟨v, type, w, w', path, x, z, startPc, endPc, pc, message, hprobe, hvalue, hrecorded, hassign, hdepx, rfl, rfl⟩ :=
    graphStatement_recorded hrun
  have hopened : s.session.SameNames { s.session with nextUid := s.session.nextUid + 1 } := ⟨rfl, rfl, rfl, rfl, rfl, rfl⟩
  obtain ⟨hahead, hsilent, hquiet⟩ := declares_of_probe hf.own hplain ((Frame.Declares.refl _ hlooks hl).congr hopened) hprobe
  have hv : Frame.Proceeds { f with anchor } { v with node := openNode { f with anchor } s true } :=
    ⟨(hahead.site (g := { f with anchor }) rfl).looksOut, hquiet.trans hwatching, rfl⟩
  have hfetched := hread { v with node := openNode { f with anchor } s true } type w hahead hv hvalue
  have hread' : f.Declares IsPlainName s.session w.session := hahead.congr hfetched.names
  obtain ⟨hnames, hrecords, hkeeps, htemporary⟩ := hrecorded.quiet (f := { f with anchor, isTracked := true }) hread'.looksOut.canEmit
  have hrecorded' := hread'.congr hnames
  have hfree : w'.session.HasNone (temporaryName number) :=
    hrecorded'.lacks _ (not_isPlainName_temporaryName number) hnone
  obtain ⟨y, rfl, hstashed⟩ := stashes_of_assign (f := { f with anchor, isTracked := true }) (g := { f with anchor })
    hf.own hf.notVoid rfl (hrecorded'.site (g := { f with anchor, isTracked := true }) rfl).looksOut hrecorded'.listed hfree hassign hdepx
  have hstored := hstashed.declares.site (g := f) rfl
  obtain ⟨lead, reads, hputs, hlead, hreads⟩ := hfetched.code
  obtain ⟨pushes, pop, ends, hputs', hpop, hpushes, hends⟩ := hstashed.code
  refine ⟨y, rfl, ⟨lead, reads ++ pushes, pop, ends, ?_, hlead, fun i hi => ?_, hpop, fun i hi => ?_⟩, ?_, hstashed.updated, ?_, ?_,
    hstashed.isOnly, ⟨hstashed.shows.found, hstashed.shows.symbol⟩⟩
  · have hstart : s.session.Puts f.block [] { s.session with nextUid := s.session.nextUid + 1 } := Session.puts_of_stream rfl
    have hall := hstart.trans (hsilent.trans (hputs.trans (hrecords.trans hputs')))
    simpa only [List.nil_append, List.append_assoc] using hall
  · rcases List.mem_append.mp hi with hi | hi
    · refine (hreads i hi).kept fun r x hx => hstored.kept r x ?_
      rw [hnames.symbol?_eq, hfetched.names.symbol?_eq]
      exact hx
    · exact Session.avoids_of_isAside (hpushes i hi)
  · exact Session.avoids_of_isAside (hends i hi)
  · have hvalued := (Gathers.expression (H := .any) ⟨rfl⟩ factor fun segments _ => Sight.admits_any _ segments).ok hvalue
    exact hstashed.isTemporary.trans (htemporary.trans hvalued.isTemporary)
  · intro z hz
    obtain ⟨p, hp, hhead⟩ := hfetched.input z hz
    exact ⟨p, hstashed.inputs p (hkeeps p hp), hhead⟩
  · exact (hrecorded'.mono fun _ => .inl).trans (hstored.mono fun _ => .inr)

/-- From `s` to `t` the end of a split chain was lowered: what was handed on last was stored into the target. -/
structure Arrives (f : Frame) (k : Nat) (target : Node) (y : Temporary) (s t : State) (m : GraphNode) : Prop where
  code : ∃ lead rest, s.session.Puts f.block (lead ++ rest) t.session ∧ Leads (some y) lead ∧
    ∀ i ∈ rest, t.session.Avoids k i
  isTemporary : m.isTemporary = false
  updated : ∃ path, m.updated = some path ∧ (sightFrom f t.session).Targets target path
  input : ∃ p ∈ m.dependencies, p.head? = some y.segment
  declares : f.Declares IsPlainName s.session t.session

/-- What stands for a made-up name is not changed by declaring plain names. -/
theorem Frame.Declares.shows {a b : Session} (h : f.Declares IsPlainName a b)
    (hy : (sightFrom f a).Shows (temporaryName y.number) y.ref y.symbol) :
    (sightFrom f b).Shows (temporaryName y.number) y.ref y.symbol :=
  ⟨(h.resolve _ (not_isPlainName_temporaryName _)).trans hy.found, h.kept _ _ hy.symbol⟩

/-- The statement behind the factors. -/
theorem arrives_of_statement (hf : f.HasStatements) (hforward : f.IsPlain) {k : Nat} {target : Node} {span' : Span}
    (hlooks : f.LooksOut s.session) (hl : s.session.Listed) (hwatching : s.session.isWatching = false)
    (hclasses : s.session.SparesClasses k) (hy : (sightFrom f s.session).Shows (temporaryName y.number) y.ref y.symbol)
    (hplain : target.IsNamedPlain)
    (hrun : graphStatement target (.identifier (.plain (temporaryName y.number) span)) span' false false f s = .ok n t) :
    Arrives f k target y s t n := by
  obtain ⟨v, type, w, w', path, x, z, startPc, endPc, pc, message, hprobe, hvalue, hrecorded, hassign, hdepx, rfl, rfl⟩ :=
    graphStatement_recorded hrun
  have hopened : s.session.SameNames { s.session with nextUid := s.session.nextUid + 1 } := ⟨rfl, rfl, rfl, rfl, rfl, rfl⟩
  obtain ⟨hahead, hsilent, hquiet⟩ := declares_of_probe hf.own hforward
    ((Frame.Declares.refl _ hlooks hl).congr hopened) hprobe
  have hv : Frame.Proceeds { f with isTracked := true } { v with node := openNode f s false } :=
    ⟨(hahead.site (g := { f with isTracked := true }) rfl).looksOut, hquiet.trans hwatching, rfl⟩
  have hshows := hahead.shows hy
  rw [expression_eq] at hvalue
  have hfetched := fetches_temporary (k := k) hv hf.anchor rfl ⟨hshows.found, hshows.symbol⟩ (fun _ => .pure _) hvalue
  have hread : f.Declares IsPlainName s.session w.session := hahead.congr hfetched.names
  obtain ⟨hnames, hrecords, hkeeps, htemporary⟩ := hrecorded.quiet (f := { f with isTracked := true }) hread.looksOut.canEmit
  have hrecorded' := hread.congr hnames
  have hsettled := settles_of_assign (f := { f with isTracked := true }) (k := k)
    (hrecorded'.site (g := { f with isTracked := true }) rfl).looksOut hrecorded'.listed ?_ ⟨hf.own, hf.anchor, hf.notVoid⟩ hplain hassign
  swap
  · intro j hj i c hc
    exact hclasses j hj i c (hrecorded'.classes ▸ hc)
  have hstored : f.Declares IsPlainName w'.session x.session := hsettled.declares.site rfl
  obtain ⟨hended, e, hputs₃, he⟩ := puts_emitDepx hstored.looksOut.canEmit hdepx
  have hnoted : z.session.SameNames (z.session.note .trace .code message) := ⟨rfl, rfl, rfl, rfl, rfl, rfl⟩
  have hclosed := hended.trans hnoted
  obtain ⟨lead, reads, hputs₁, hlead, hreads⟩ := hfetched.code
  obtain ⟨code, hputs₂, hcode⟩ := hsettled.code
  refine ⟨⟨lead, reads ++ (code ++ [e]), ?_, hlead, fun i hi => ?_⟩, ?_, ⟨path, rfl, hsettled.targets.tracked.congr hclosed⟩, ?_, ?_⟩
  · have hstart : s.session.Puts f.block [] { s.session with nextUid := s.session.nextUid + 1 } := Session.puts_of_stream rfl
    have hend : z.session.Puts f.block [] (z.session.note .trace .code message) := Session.puts_of_stream rfl
    have hall := hstart.trans (hsilent.trans (hputs₁.trans (hrecords.trans (hputs₂.trans (hputs₃.trans hend)))))
    simpa only [List.nil_append, List.append_nil, List.append_assoc] using hall
  · rcases List.mem_append.mp hi with hi | hi
    · refine (hreads i hi).kept fun r x hx => (hclosed.symbol?_eq r).trans (hstored.kept r x ?_)
      rw [hnames.symbol?_eq, hfetched.names.symbol?_eq]
      exact hx
    rcases List.mem_append.mp hi with hi | hi
    · exact (hcode i hi).kept fun r x hx => (hclosed.symbol?_eq r).trans hx
    · exact Session.avoids_of_isAside (List.mem_singleton.mp hi ▸ he)
  · have hvalued := (Gathers.expression (H := .any) ⟨rfl⟩ (.identifier (.plain (temporaryName y.number) span))
      fun segments _ => Sight.admits_any _ segments).ok (f := { f with isTracked := true }) (by rw [expression_eq]; exact hvalue)
    exact hsettled.isTemporary.trans (htemporary.trans hvalued.isTemporary)
  · obtain ⟨p, hp, hhead⟩ := hfetched.input y rfl
    exact ⟨p, hsettled.inputs p (hkeeps p hp), hhead⟩
  · exact (hrecorded'.trans hstored).congr hclosed

/-! ## Split chains -/

/-- A chain can be split here: no symbol has a name that is made up from now on, and no member one from the number `k`
on. -/
structure Frame.Splits (f : Frame) (k : Nat) (s : Session) : Prop where
  looksOut : f.LooksOut s
  listed : s.Listed
  unspent : s.Unspent false k
  classes : s.SparesClasses k

/-- From `s` to `t` what was handed on went through the variables into the target. The nodes that write the variables
were put behind those that are held back, and the one that writes the target is the last of them. -/
structure Relayed (f : Frame) (k : Nat) (target : Node) (source : Option Temporary) (ys : List Temporary)
    (ns : List GraphNode) (last : GraphNode) (s t : State) : Prop where
  row : Temporary.InRow s.session.counters.temporaries t.session ys
  code : ∃ lead code, s.session.Puts f.block (lead ++ code) t.session ∧ Leads source lead ∧ t.session.HandsOn k ys code
  held : Heaps (fun _ => True) (ns ++ [last]) s t
  nodes : t.session.nodes = s.session.nodes
  blocks : ∀ n ∈ ns ++ [last], n.block = f.block
  writes : List.Forall₂ GraphNode.WritesOnly ys ns
  reads : List.Forall₂ GraphNode.ReadsFrom (source :: ys.map some) (ns ++ [last])
  isTemporary : last.isTemporary = false
  updated : ∃ path, last.updated = some path ∧ (sightFrom f t.session).Targets target path
  declares : f.Declares (fun name => IsPlainName name ∨ ∃ j, s.session.counters.temporaries ≤ j ∧ name = temporaryName j)
    s.session t.session

section
variable {value target : Node} {segments : List Node} (hf : f.HasStatements) (hforward : f.IsPlain)
  (hpath : value.isPath = true) (hsegments : value.segments = .ok segments) (hvalue : value.IsNamedPlain)
  (htarget : target.IsNamedPlain)

include hsegments in
/-- What becomes of the nodes that are held back does not depend on what is gathered. -/
theorem stated_any {left right : Node} {isTemporary isLast : Bool} (hlast : isLast = true → s.pointers = segments)
    (hrun : graphStatement left right span isTemporary isLast f s = .ok n t) : Stated .any f isLast s t n :=
  graphStatement_gathers (fun _ => trivial) (fun _ _ => Harvest.allows_any _ _) (fun _ _ => Harvest.allows_any _ _)
    (fun hend _ hm => Node.segments_of_mem_segments hsegments (hlast hend ▸ hm)) (fun _ _ _ => trivial) hrun

include hpath hsegments hvalue in
/-- A segment behind a made-up variable. -/
theorem fetches_segment {k : Nat} {segment : Node} {lastFactor : Bool} {span' : Span} {type : Ty} (hs : f.Proceeds w)
    (hl : w.session.Listed) (hclasses : w.session.SparesClasses k) (hanchor : f.anchor = none)
    (htracked : f.isTracked = true) (hmem : segment ∈ segments)
    (hy : (sightFrom f w.session).Shows (temporaryName y.number) y.ref y.symbol)
    (hrun : expression (.member (.identifier (.plain (temporaryName y.number) span)) segment .dot lastFactor span') f w =
      .ok type t) : Fetches k f.block (some y) w t := by
  have hroot : (Node.identifier (.plain (temporaryName y.number) span)).segments =
      .ok [.identifier (.plain (temporaryName y.number) span)] := rfl
  have hboth := Node.segments_of_sides hroot (Node.segments_of_mem_segments hsegments hmem) lastFactor span'
  rw [expression_eq] at hrun
  change (chainSegments _ >>= fun segments => lowerChain expression segments span') f w = _ at hrun
  rw [chainSegments_ok hboth, pure_bind] at hrun
  refine fetches_temporary hs hanchor htracked hy (fun c => ?_) hrun
  exact gathers_oldSegments ⟨rfl⟩ hl hclasses hpath hsegments hvalue (fun n hn => List.mem_singleton.mp hn ▸ hmem) false c

/-- Once the next name is made up, the session can still be split, and the name is free. -/
theorem Frame.Splits.next {k : Nat} (hs : f.Splits k s.session) {name : String} {s' : State}
    (hrun : nextTemporary "%ssa_" f s = .ok name s') :
    name = temporaryName s.session.counters.temporaries ∧ s.session.SameNames s'.session ∧
      s'.session.HasNone name ∧ s'.session.Unspent false (s.session.counters.temporaries + 1) ∧
      s'.session.stream f.block = s.session.stream f.block ∧ s'.session.nodes = s.session.nodes ∧ Aside s s' := by
  cases hrun
  refine ⟨rfl, ⟨rfl, rfl, rfl, rfl, rfl, rfl⟩, ?_, hs.unspent.reserve, rfl, rfl, ⟨rfl, rfl, rfl⟩⟩
  exact (hs.unspent.hasSpare _ (Nat.le_refl _)).congr rfl rfl

include hf hforward in
/-- A factor is lowered where a chain can be split, and so it stays. -/
theorem splits_of_relays {k : Nat} {source : Option Temporary} {factor : Node} {anchor : Option Nat} {name : String} {s' : State} {isLast : Bool}
    (hs : f.Splits k s.session) (hname : nextTemporary "%ssa_" f s = .ok name s')
    (hread : ∀ w type w', f.Declares IsPlainName s.session w.session → { f with anchor }.Proceeds w →
      expression factor { f with anchor, isTracked := true } w = .ok type w' → Fetches k f.block source w w')
    (hrun : graphStatement (.identifier (.plain name span)) factor span true isLast { f with anchor } s' = .ok n t) :
    ∃ y : Temporary, y.number = s.session.counters.temporaries ∧ name = temporaryName y.number ∧
      Relays f k source y s' t n ∧ t.session.Unspent false (y.number + 1) ∧ f.Splits k t.session := by
  obtain ⟨rfl, hnames, hnone, hunspent, -⟩ := hs.next hname
  have hlooks := hs.looksOut.congr hnames
  have hl := hs.listed.congr hnames.classes hnames.headers
  obtain ⟨y, hnumber, hrelays⟩ := relays_of_statement hf hforward hlooks hl hunspent.isWatching hnone
    (fun w type w' hw => hread w type w' (((Frame.Declares.refl _ hs.looksOut hs.listed).congr hnames).trans hw)) hrun
  have hended : t.session.Unspent false (s.session.counters.temporaries + 1) := by
    have hanchor : Frame.IsPlain { f with anchor } := hforward
    refine (Sparing.statementSpent (hanchor.isSpent _) _ _ _ _ _ ?_).spares.ok hunspent hrun
    rintro _ ⟨⟩
    exact isSpent_temporaryName (Nat.lt_succ_self _)
  refine ⟨y, hnumber, hnumber ▸ rfl, hrelays, hnumber ▸ hended, hrelays.declares.looksOut, hrelays.declares.listed,
    hended.le ?_, fun j hj i c hc => ?_⟩
  · exact Nat.le_succ_of_le hs.unspent.count
  · refine hs.classes j hj i c ?_
    rw [← hnames.classes, ← hrelays.declares.classes]
    exact hc

/-- The variable that is stored and pushed next comes before those that are handed on behind it. -/
theorem handsOn_relays {k : Nat} {source : Option Temporary} {a : Session} {ys : List Temporary} {lead code : List Instruction}
    (hrelays : Relays f k source y s t n) (hkept : ∀ r x, t.session.symbol? r = some x → a.symbol? r = some x)
    (hputs : t.session.Puts f.block (lead ++ code) a) (hlead : Leads (some y) lead) (hcode : a.HandsOn k ys code) :
    ∃ lead' code', s.session.Puts f.block (lead' ++ code') a ∧ Leads source lead' ∧ a.HandsOn k (y :: ys) code' := by
  obtain ⟨lead', before, pop, ends, hputs', hlead', hbefore, hpop, hends⟩ := hrelays.code
  cases hlead with
  | @load _ guides push hguides hpush =>
    refine ⟨lead', before ++ pop :: (ends ++ guides) ++ push :: code, ?_, hlead',
      .next (fun i hi => (hbefore i hi).kept hkept) hpop (fun i hi => ?_) hpush hcode⟩
    · simpa using hputs'.trans hputs
    · rcases List.mem_append.mp hi with hi | hi
      · exact (hends i hi).kept hkept
      · exact Session.avoids_of_isAside (hguides i hi)

/-- One more variable before those of a row. -/
theorem inRow_cons {j : Nat} {P : String → Prop} {a b : Session} {ys : List Temporary} (hy : y.IsOnly a)
    (ht : f.Declares P a b) (hother : ¬ P (temporaryName y.number)) (hrow : Temporary.InRow j b ys)
    (hj : y.number < j) : Temporary.InRow y.number b (y :: ys) := by
  refine ⟨List.pairwise_cons.mpr ⟨fun z hz => ?_, hrow.increasing⟩, fun z hz => ?_, fun z hz => ?_⟩
  · exact Nat.lt_of_lt_of_le hj (hrow.behind z hz)
  · rcases List.mem_cons.mp hz with rfl | hz
    · exact Nat.le_refl _
    · exact Nat.le_trans (Nat.le_of_lt hj) (hrow.behind z hz)
  · rcases List.mem_cons.mp hz with rfl | hz
    · exact hy.declares ht hother
    · exact hrow.isOnly z hz

/-- Behind the factors nothing more is handed on. -/
theorem relayed_of_arrives {k : Nat} (h : Arrives f k target y s t n) (hstated : Stated .any f false s t n) :
    Relayed f k target (some y) [] [] n s { t with held := t.held ++ [n] } where
  row := ⟨.nil, fun _ hz => absurd hz List.not_mem_nil, fun _ hz => absurd hz List.not_mem_nil⟩
  code := by
    obtain ⟨lead, rest, hputs, hlead, hrest⟩ := h.code
    exact ⟨lead, rest, hputs, hlead, .done hrest⟩
  held := hstated.heaps fun _ _ => .inr trivial
  nodes := hstated.nodes
  blocks m hm := List.mem_singleton.mp hm ▸ hstated.block
  writes := .nil
  reads := .cons (fun z hz => Option.mem_some_iff.mp hz ▸ h.input) .nil
  isTemporary := h.isTemporary
  updated := h.updated
  declares := h.declares.mono fun _ => .inl

/-- A factor comes before those behind it. -/
theorem Relayed.cons {k : Nat} {source : Option Temporary} {ys : List Temporary} {ns : List GraphNode} {last : GraphNode}
    {s' : State} {pointers : List Node} {isLast : Bool} {anchor : Option Nat} (hs : f.Splits k s.session) (hnames : s.session.SameNames s'.session)
    (hstream : s'.session.stream f.block = s.session.stream f.block) (hnodes : s'.session.nodes = s.session.nodes)
    (haside : Aside s s') (hrelays : Relays f k source y s' t n) (hnumber : y.number = s.session.counters.temporaries)
    (hunspent : t.session.Unspent false (y.number + 1)) (hstated : Stated .any { f with anchor } isLast s' t n)
    (h : Relayed f k target (some y) ys ns last { t with held := t.held ++ [n], pointers } u) :
    Relayed f k target source (y :: ys) (n :: ns) last s u where
  row := by
    rw [← hnumber]
    refine inRow_cons hrelays.isOnly h.declares ?_ h.row hunspent.count
    rintro (hplain | ⟨j, hj, heq⟩)
    · exact not_isPlainName_temporaryName _ hplain
    · have := temporaryName_injective heq
      have := hunspent.count
      dsimp only at hj
      omega
  code := by
    obtain ⟨lead, code, hputs, hlead, hcode⟩ := h.code
    obtain ⟨lead', code', hputs', hlead', hcode'⟩ := handsOn_relays hrelays h.declares.kept hputs hlead hcode
    exact ⟨lead', code', (Session.puts_of_stream hstream).trans hputs', hlead', hcode'⟩
  held := by
    have hheaps := hstated.heaps fun _ _ => .inr trivial
    have hall : Heaps (fun _ => True) ([n] ++ (ns ++ [last])) s' u := .trans hheaps h.held
    unfold Heaps at hall
    rwa [haside.held] at hall
  nodes := h.nodes.trans (hstated.nodes.trans hnodes)
  blocks m hm := by
    rcases List.mem_cons.mp hm with rfl | hm
    · exact hstated.block
    · exact h.blocks m hm
  writes := .cons ⟨hrelays.isTemporary, hrelays.updated⟩ h.writes
  reads := .cons hrelays.input h.reads
  isTemporary := h.isTemporary
  updated := h.updated
  declares := by
    have hfirst := ((Frame.Declares.refl _ hs.looksOut hs.listed).congr hnames).trans hrelays.declares
    refine (hfirst.mono fun name => Or.imp_right fun heq => ⟨_, hnumber ▸ Nat.le_refl _, heq⟩).trans
      (h.declares.mono fun name => Or.imp_right ?_)
    rintro ⟨j, hj, heq⟩
    have hcount := hunspent.count
    exact ⟨j, by dsimp only at hj; omega, heq⟩

include hf hforward hpath hsegments hvalue htarget in
/-- The factors of a split chain hand the value on. -/
theorem Factors.relayed {k : Nat} {factor : Node} {anchor : Option Nat} {rest : List Node} {source : Option Temporary}
    (h : Factors f target span factor anchor rest s t) (hrest : segments = s.pointers ++ rest) (hs : f.Splits k s.session)
    (hread : ∀ w type w', f.Declares IsPlainName s.session w.session → { f with anchor }.Proceeds w →
      expression factor { f with anchor, isTracked := true } w = .ok type w' → Fetches k f.block source w w') :
    ∃ ys ns last, ys.length = rest.length + 1 ∧ Relayed f k target source ys ns last s t := by
  induction h generalizing source with
  | @last factor anchor name n m s s' t u hname hfirst hlast =>
    obtain ⟨y, hnumber, rfl, hrelays, hunspent, ht⟩ := splits_of_relays hf hforward hs hname hread hfirst
    obtain ⟨-, hnames, -, -, hstream, hnodes, haside⟩ := hs.next hname
    have hwhole : s'.pointers = segments := by rw [haside.pointers, hrest, List.append_nil]
    have harrives := arrives_of_statement (k := k) (s := { t with held := t.held ++ [n] }) hf hforward ht.looksOut ht.listed
      ht.unspent.isWatching ht.classes hrelays.shows htarget hlast
    have hstated := stated_any (f := { f with anchor }) hsegments (fun _ => hwhole) hfirst
    have hstated' := stated_any (s := { t with held := t.held ++ [n] }) hsegments (fun h => absurd h Bool.false_ne_true) hlast
    exact ⟨[y], [n], m, rfl, .cons hs hnames hstream hnodes haside hrelays hnumber hunspent hstated
      (relayed_of_arrives harrives hstated')⟩
  | @more factor segment anchor rest name n s s' t u hname hfirst hmore ih =>
    obtain ⟨y, hnumber, rfl, hrelays, hunspent, ht⟩ := splits_of_relays hf hforward hs hname hread hfirst
    obtain ⟨-, hnames, -, -, hstream, hnodes, haside⟩ := hs.next hname
    have hstated := stated_any (f := { f with anchor }) hsegments (fun h => absurd h Bool.false_ne_true) hfirst
    have hended : t.pointers = s.pointers := hstated.pointers.trans haside.pointers
    obtain ⟨ys, ns, last, hlength, hrelayed⟩ := ih
      (by rw [hended, hrest, List.append_assoc]; rfl) ht fun w type w' hw hproceeds hrun => by
        have hshows := hw.shows hrelays.shows
        have hmem : segment ∈ segments := by simp [hrest]
        refine fetches_segment (f := { f with anchor := none, isTracked := true }) hpath hsegments hvalue
          (hproceeds.site rfl) hw.listed (fun j hj i c hc => ?_) rfl rfl hmem ⟨hshows.found, hshows.symbol⟩ hrun
        exact ht.classes j hj i c (hw.classes ▸ hc)
    exact ⟨y :: ys, n :: ns, last, by simp [hlength],
      .cons hs hnames hstream hnodes haside hrelays hnumber hunspent hstated hrelayed⟩

end

end Lowering

end Diglot
