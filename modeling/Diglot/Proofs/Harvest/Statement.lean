import Diglot.Proofs.Association.Tree
import Diglot.Proofs.Chains.Walk
import Diglot.Proofs.Harvest.Expression
import Diglot.Proofs.Paths.Matching

/-! # What a statement gathers

Looking ahead, and finding the symbol that a store goes to, leave the open nodes as they are (`Aloof`). So the node
of a statement gets its inputs from the chains in its value and in its target, and from the chain that is recorded
as a whole, if it ends there; and only the literals in those chains are put behind the node that is held back first
(`graphStatement_gathers`).
-/

set_option autoImplicit false

namespace Diglot.Lowering

variable {α β : Type} {f : Frame} {s t u : State} {H : Harvest} {target value : Node} {span : Span}

/-! ## Steps that leave the open nodes alone -/

/-- The open nodes and the remembered segments are the same. -/
structure Aside (s t : State) : Prop where
  node : t.node = s.node
  held : t.held = s.held
  pointers : t.pointers = s.pointers

/-- A run that ends well leaves the open nodes and the remembered segments alone. -/
def Aloof (m : Lower α) : Prop := ∀ f s a t, m f s = .ok a t → Aside s t

theorem Aside.refl (s : State) : Aside s s := ⟨rfl, rfl, rfl⟩

theorem Aside.trans (h : Aside s t) (h' : Aside t u) : Aside s u :=
  ⟨h'.node.trans h.node, h'.held.trans h.held, h'.pointers.trans h.pointers⟩

namespace Aloof

theorem pure (a : α) : Aloof (Pure.pure a : Lower α) := by
  intro f s a' t hrun
  cases hrun
  exact .refl s

theorem bind {m : Lower α} {k : α → Lower β} (hm : Aloof m) (hk : ∀ a, Aloof (k a)) : Aloof (m >>= k) := by
  intro f s b u hrun
  obtain ⟨a, t, ht, hu⟩ := bind_eq_ok.mp hrun
  exact (hm f s a t ht).trans (hk a f t b u hu)

theorem ite {c : Prop} [Decidable c] {m n : Lower α} (hm : Aloof m) (hn : Aloof n) : Aloof (if c then m else n) := by
  split
  · exact hm
  · exact hn

theorem forM {l : List β} {k : β → Lower Unit} (h : ∀ a, Aloof (k a)) : Aloof (l.forM k) := by
  induction l with
  | nil => exact pure ()
  | cons a rest ih => exact bind (h a) fun _ => ih

theorem ofInert {m : Lower α} (h : Tame true false m) : Aloof m := by
  intro f s a t hrun
  have hkept := h.keeps_ok hrun
  exact ⟨(hkept.inert rfl).2, hkept.holds rfl, hkept.pointers⟩

theorem withSight {k : Sight → Lower α} (h : ∀ v, Aloof (k v)) : Aloof (sight >>= k) := by
  intro f s a t hrun
  exact h _ f s a t (sight_bind_ok hrun)

theorem allocate (d : Declaration) : Aloof (allocate d) := by
  intro f s r t hrun
  obtain ⟨-, _, hok⟩ | ⟨_, _, herror⟩ := allocate_cases d f s
  · rw [hok] at hrun
    cases hrun
    exact ⟨rfl, rfl, rfl⟩
  · rw [herror] at hrun
    cases hrun

theorem targetSymbol (ident : Identifier) (type : Ty) : Aloof (targetSymbol ident type) := by
  intro f s r t hrun
  rw [targetSymbol_state hrun]
  exact ⟨rfl, rfl, rfl⟩

/-! ## Looking ahead -/

theorem declareForward (name : String) : Aloof (declareForward name) :=
  bind (ofInert .read) fun _ =>
    ite (withSight fun _ => ite (bind (allocate _) fun _ => pure _) (pure _)) (pure _)

section
variable {part : ProbePart} (hpart : ∀ n, Aloof (part n))
include hpart

theorem probeIdentifier (ident : Identifier) : Aloof (probeIdentifier part ident) :=
  bind (forM fun d => hpart d) fun _ => ite (declareForward _) (pure _)

theorem probeSegment (isSingle : Bool) (segment : Node) : Aloof (probeSegment part isSingle segment) := by
  unfold Lowering.probeSegment
  split
  · exact ite (probeIdentifier hpart _) (pure _)
  · exact forM hpart
  · exact pure _

theorem probeChain (segments : List Node) : Aloof (probeChain part segments) :=
  have hrest : Aloof ((segments.map Node.unwrap).forM (Lowering.probeSegment part (segments.length == 1))) :=
    forM (probeSegment hpart _)
  ite (bind (ofInert (.defect _)) fun _ => hrest) hrest

theorem probeNode (node : Node) : Aloof (probeNode part node) := by
  unfold Lowering.probeNode
  cases node with
  | identifier => exact probeChain hpart _
  | call => exact probeChain hpart _
  | member => exact bind (ofInert (.chainSegments _)) fun _ => probeChain hpart _
  | literal => exact pure _
  | list => exact forM hpart
  | range => exact bind (hpart _) fun _ => bind (hpart _) fun _ => forM hpart
  | unary => exact hpart _
  | binary left op right span =>
    dsimp only
    split
    · exact ofInert (.halt _ _ _)
    · exact bind (hpart _) fun _ => hpart _
  | group => exact ite (hpart _) (bind (hpart _) fun _ => forM hpart)
  | defaultArg => exact pure _
  | dynamic => exact pure _
  | _ => exact ofInert (.halt _ _ _)

end

theorem probeWithin (depth : Nat) (node : Node) : Aloof (probeWithin depth node) := by
  induction depth generalizing node with
  | zero => exact ofInert (.defect _)
  | succ depth ih => exact probeNode ih node

theorem probe (node : Node) : Aloof (probe node) := probeWithin _ node

end Aloof

/-! ## The chain as a whole -/

namespace Sight

variable {v : Sight} {c d : Cursor}

/-- Walking on over a segment adds to the path what shows the segment; where the walk stops it may add nothing. -/
theorem walkTarget_shows {shown : String} {dims : Nat} {allowClass : Bool} :
    (∀ d, v.walkTarget c shown dims allowClass = .go d →
      ∃ x : Segment, x.kind = .symbol ∧ x.name = shown ∧ x.dims = [] ∧ d.path = c.path ++ [x]) ∧
    ∀ d, v.walkTarget c shown dims allowClass = .stop d → d.path = c.path ∨
      ∃ x : Segment, x.kind = .symbol ∧ x.name = shown ∧ x.dims = [] ∧ d.path = c.path ++ [x] := by
  refine ⟨fun d h => ?_, fun d h => ?_⟩
  · obtain ⟨r, x, -, -, rfl⟩ | ⟨id, -, -, rfl⟩ := walkTarget_go h
    · exact ⟨_, rfl, rfl, rfl, rfl⟩
    · exact ⟨_, rfl, rfl, rfl, rfl⟩
  · unfold walkTarget at h
    split at h
    · split at h <;> cases h
    · split at h
      · cases h
      · cases h
        exact .inl rfl
    · split at h
      · next x hx =>
        cases h
        obtain ⟨m, -, rfl⟩ := Option.map_eq_some_iff.mp hx
        exact .inr ⟨_, rfl, rfl, rfl, rfl⟩
      · cases h
        exact .inl rfl
    · cases h
      exact .inl rfl

theorem walkSegment_shows (dialect : Dialect) {n : Node} :
    (∀ d, v.walkSegment c n = .go d → ∃ x, n.ShownBy dialect x ∧ d.path = c.path ++ [x]) ∧
    ∀ d, v.walkSegment c n = .stop d → d.path = c.path ∨ ∃ x, n.ShownBy dialect x ∧ d.path = c.path ++ [x] := by
  unfold walkSegment
  split
  · next ident =>
    split
    · refine ⟨fun d h => ?_, fun d h => by cases h⟩
      cases h
      exact ⟨_, ⟨rfl, rfl, .inl rfl⟩, rfl⟩
    · refine ⟨fun d h => ?_, fun d h => ?_⟩
      · obtain ⟨x, hkind, hname, hdims, hpath⟩ := walkTarget_shows.1 d h
        exact ⟨x, ⟨hkind, hname, .inl hdims⟩, hpath⟩
      · obtain hpath | ⟨x, hkind, hname, hdims, hpath⟩ := walkTarget_shows.2 d h
        · exact .inl hpath
        · exact .inr ⟨x, ⟨hkind, hname, .inl hdims⟩, hpath⟩
  · next call =>
    have hmember {x : Segment} (hkind : x.kind = .symbol) (hdims : x.dims = []) :
        (Node.call call).ShownBy dialect x := by
      refine ⟨fun hmethod => ?_, .inl hdims⟩
      cases hkind.symm.trans hmethod
    split
    · refine ⟨fun d h => ?_, fun d h => ?_⟩
      · obtain ⟨x, hkind, -, hdims, hpath⟩ := walkTarget_shows.1 d h
        exact ⟨x, hmember hkind hdims, hpath⟩
      · obtain hpath | ⟨x, hkind, -, hdims, hpath⟩ := walkTarget_shows.2 d h
        · exact .inl hpath
        · exact .inr ⟨x, hmember hkind hdims, hpath⟩
    · unfold walkCall
      split
      · split
        · exact ⟨fun d h => (by cases h), fun d h => (by cases h)⟩
        · next p _ =>
          refine ⟨fun d h => ?_, fun d h => by cases h⟩
          cases h
          refine ⟨callSegment p call.name, ?_, rfl⟩
          unfold callSegment
          split
          · exact hmember rfl rfl
          · exact ⟨fun _ => rfl, .inl rfl⟩
      · refine ⟨fun d h => (by cases h), fun d h => ?_⟩
        cases h
        exact .inl rfl
  · refine ⟨fun d h => (by cases h), fun d h => ?_⟩
    cases h
    exact .inl rfl

/-- A walk shows the segments of the chain, one by one, as far as it goes. -/
theorem walk_shows (dialect : Dialect) {segments : List Node} (h : v.walk c segments = some d) :
    ∃ front p, front <+: segments.map Node.unwrap ∧ List.Forall₂ (Node.ShownBy dialect) front p ∧
      d.path = c.path ++ p := by
  induction segments generalizing c with
  | nil =>
    cases h
    exact ⟨[], [], List.prefix_refl _, .nil, by simp⟩
  | cons n rest ih =>
    unfold walk at h
    split at h
    · next e hgo =>
      obtain ⟨x, hx, hone⟩ := (walkSegment_shows dialect).1 e hgo
      obtain ⟨front, p, hfront, hshown, hpath⟩ := ih h
      refine ⟨n.unwrap :: front, x :: p, (List.prefix_cons_inj _).mpr hfront, .cons hx hshown, ?_⟩
      rw [hpath]
      dsimp only
      rw [hone, List.append_assoc]
      rfl
    · next e hstop =>
      cases h
      obtain hsame | ⟨x, hx, hone⟩ := (walkSegment_shows dialect).2 d hstop
      · exact ⟨[], [], List.nil_prefix, .nil, by simp [hsame]⟩
      · exact ⟨[n.unwrap], [x], by simp, .cons hx .nil, hone⟩
    · cases h

/-- What a chain stands for shows its segments. -/
theorem dependency?_shows (dialect : Dialect) {node : Node} {segments : List Node} {p : Path}
    (hsegments : node.segments = .ok segments) (h : v.dependency? node = some p) : p.Shows dialect segments := by
  obtain ⟨segments', w, hsame, -, hwalk, rfl⟩ := dependency?_eq_some h
  cases hsegments.symm.trans hsame
  obtain ⟨front, p, hfront, hshown, hpath⟩ := walk_shows dialect hwalk
  obtain rfl : w.path = p := hpath
  exact ⟨front, hfront, hshown⟩

end Sight

/-- A chain that is put together again has the segments that it was taken apart into. -/
theorem segments_reassemble {segments : List Node} {node : Node} (h : Node.reassemble segments = some node)
    (hsegments : ∀ m ∈ segments, m.segments = .ok [m]) : node.segments = .ok segments := by
  match segments, h with
  | a :: b :: rest, h =>
    cases h
    exact Node.segments_foldl_join (hsegments a (List.mem_cons_self ..))
      fun m hm => hsegments m (List.mem_cons_of_mem a hm)

/-! ## Runs of steps that gather -/

theorem Gathers.ok {m : Lower α} {a : α} (h : Gathers (sightFrom f s.session) H m) (hrun : m f s = .ok a t) :
    Gathered (sightFrom f s.session) H s t := h f.isGuided s a t (.refl _) hrun

theorem Aside.enriched (h : Aside s t) : Enriched H s t := .ofSame h.pointers h.held h.node

/-- Which segments are remembered does not matter to the nodes. -/
theorem Enriched.remembering (h : Enriched H s t) (pointers : List Node) :
    Enriched H { s with pointers } { t with pointers } := ⟨rfl, h.held, h.inputs, h.nodup, h.outline⟩

/-- Behind the end of a split chain the node has the path that its segments stand for, if they stand for one. -/
theorem recordSplitChain_gathers (hpath : ∀ node p, Node.reassemble s.pointers = some node →
    (sightFrom f s.session).dependency? node = some p → H.path p) (hrun : recordSplitChain f s = .ok () t) :
    Enriched H { s with pointers := [] } t := by
  replace hrun := sight_bind_ok hrun
  obtain ⟨u', w, hget, hrun⟩ := bind_eq_ok.mp hrun
  cases hget
  obtain ⟨⟨⟩, w, hforget, hrun⟩ := bind_eq_ok.mp hrun
  cases hforget
  cases hp : (Node.reassemble s.pointers).bind (sightFrom f s.session).dependency? with
  | none =>
    rw [hp] at hrun
    cases hrun
    exact .refl H _
  | some p =>
    rw [hp] at hrun
    obtain ⟨node, hnode, hp⟩ := Option.bind_eq_some_iff.mp hp
    obtain ⟨⟨⟩, w, hnote, hrun⟩ := bind_eq_ok.mp hrun
    cases hnote
    have hnoted : Aside { s with pointers := [] } { s with
        session := s.session.note .trace .code ("reassembled chain " ++ p.text), pointers := [] } := ⟨rfl, rfl, rfl⟩
    exact hnoted.enriched.trans ((Gathers.recordRead (hpath node p hnode hp) false).ok hrun).toEnriched

theorem recordSplitChain_enriched (hsegments : ∀ m ∈ s.pointers, m.segments = .ok [m])
    (hpath : ∀ p, Path.Shows f.dialect s.pointers p → H.path p) (hrun : recordSplitChain f s = .ok () t) :
    Enriched H { s with pointers := [] } t :=
  recordSplitChain_gathers (fun _ p hnode hp =>
    hpath p (Sight.dependency?_shows f.dialect (segments_reassemble hnode hsegments) hp)) hrun

/-- Nothing is added to the nodes of a session that stays still. -/
theorem still_nodes {a b : Session} (h : a.Still b) : b.nodes = a.nodes := by
  funext id
  unfold Session.nodes
  cases ha : a.block? id with
  | some c =>
    obtain ⟨d, hd, hcd⟩ := h.blocks id c ha
    rw [hd]
    exact hcd.graph
  | none =>
    have hb : b.block? id = none := by
      rw [Session.block?, Array.getElem?_eq_none_iff] at ha ⊢
      rwa [h.size]
    rw [hb]

/-! ## Stores -/

theorem assignTo_enriched {type : Ty} {path : Path} (hsymbol : ∀ r, H.symbol r)
    (htarget : ∀ segments, target.HasChain segments → H.Allows f.dialect segments)
    (hrun : assignTo target type f s = .ok path t) : Enriched H s t := by
  unfold assignTo at hrun
  split at hrun
  · next ident =>
    rw [run_ite] at hrun
    split at hrun
    · cases hrun
    · obtain ⟨r, u, hfound, hrun⟩ := bind_eq_ok.mp hrun
      have haside := Aloof.targetSymbol ident type f s r u hfound
      refine (haside.enriched).trans (Gathered.toEnriched (Gathers.ok (f := f) (Gathers.storeAt ⟨rfl⟩ (hsymbol r)
        fun d hd segments hchain => ?_) hrun))
      exact ⟨htarget segments (.operand hd hchain), fun _ _ r _ => hsymbol r⟩
  · next left right op lastFactor span =>
    obtain ⟨segments, u, hchain, hrun⟩ := bind_eq_ok.mp hrun
    obtain ⟨hsegments, rfl⟩ := chainSegments_run hchain
    cases hlast : segments.getLast? with
    | none =>
      rw [hlast] at hrun
      cases hrun
    | some last =>
    rw [hlast] at hrun
    cases last with
    | identifier property =>
      have hmem := List.mem_of_getLast? hlast
      refine ((Gathers.storeMember (v := sightFrom f s.session) ⟨rfl⟩ (fun d hd inside hchain => ?_)
        (fun _ r _ => hsymbol r) ?_ _).ok hrun).toEnriched
      · exact ⟨htarget inside (Node.hasChain_inside rfl hsegments hmem hd hchain), fun _ _ r _ => hsymbol r⟩
      · refine Gathers.lowerSegments ⟨rfl⟩ false _ (fun n hn m hm => ?_) (fun _ _ r _ => hsymbol r) fun n hn => ?_
        · obtain ⟨k, hk, rfl⟩ := List.mem_map.mp hn
          refine Gathers.expression ⟨rfl⟩ m fun inside hchain => ?_
          have hmem := List.dropLast_subset segments hk
          exact ⟨htarget inside (Node.hasChain_inside rfl hsegments hmem hm hchain), fun _ _ r _ => hsymbol r⟩
        · obtain ⟨k, hk, rfl⟩ := List.mem_map.mp hn
          refine (htarget segments (.whole rfl hsegments)).literal _ ?_
          exact List.mem_map_of_mem (List.dropLast_subset segments hk)
    | _ => cases hrun
  · cases hrun

/-! ## Statements with nodes -/

/-- From `s` to `t` a statement was lowered, whose node gathered its inputs. It is no part of the program yet. -/
structure Stated (H : Harvest) (f : Frame) (isLast : Bool) (s t : State) (n : GraphNode) : Prop where
  pointers : t.pointers = if isLast then [] else s.pointers
  held : ∃ read written, (∀ l ∈ read, H.literal l) ∧ t.held = onFirst (GraphNode.tacked read written) s.held
  inputs : ∀ p ∈ n.dependencies, H.path p
  nodup : n.dependencies.Nodup
  block : n.block = f.block
  nodes : t.session.nodes = s.session.nodes

theorem graphStatement_gathers {isTemporary isLast : Bool} {n : GraphNode} (hsymbol : ∀ r, H.symbol r)
    (hvalue : ∀ segments, value.HasChain segments → H.Allows f.dialect segments)
    (htarget : ∀ segments, target.HasChain segments → H.Allows f.dialect segments)
    (hsegments : isLast = true → ∀ m ∈ s.pointers, m.segments = .ok [m])
    (hpath : isLast = true → ∀ p, Path.Shows f.dialect s.pointers p → H.path p)
    (hrun : graphStatement target value span isTemporary isLast f s = .ok n t) : Stated H f isLast s t n := by
  obtain ⟨v, type, w, w', path, x, y, p, q, k, message, hprobe, hvalued, hrecorded, hassign, hdepx, rfl, rfl⟩ :=
    graphStatement_recorded hrun
  have hahead := Aloof.probe value f _ _ v hprobe
  have hv := (Gathers.ok (f := { f with isTracked := true }) (Gathers.expression ⟨rfl⟩ value fun segments hchain =>
    ⟨hvalue segments hchain, fun _ _ r _ => hsymbol r⟩) hvalued).toEnriched
  have hend : Aside x y := Aloof.ofInert (.emitSilent _ _) f x k y hdepx
  have hstored := (assignTo_enriched hsymbol (f := { f with isTracked := true }) htarget hassign).trans hend.enriched
  -- Where the chain ends the remembered segments are dropped behind the value.
  have hwhole : Enriched H
      { v with node := openNode f s isTemporary, pointers := if isLast then [] else s.pointers } w' := by
    have hw := hv.remembering (if isLast then [] else s.pointers)
    refine hw.trans ?_
    have hpointers : w.pointers = s.pointers := hv.pointers.trans hahead.pointers
    unfold RecordsChain at hrecorded
    split at hrecorded
    · next hlast =>
      rw [hlast, if_pos rfl]
      refine recordSplitChain_enriched (f := { f with isTracked := true }) ?_ ?_ hrecorded
      · rw [hpointers]
        exact hsegments hlast
      · rw [hpointers]
        exact hpath hlast
    · next hlast =>
      rw [if_neg hlast, hrecorded, ← hpointers]
      exact .refl H w
  have hall := hwhole.trans hstored
  refine ⟨hall.pointers, ?_, ?_, ?_, block_graphStatement hrun, ?_⟩
  · obtain ⟨read, written, hread, hheld⟩ := hall.held
    exact ⟨read, written, hread, hheld.trans (congrArg _ hahead.held)⟩
  · obtain ⟨new, hnew, hinputs⟩ := hall.inputs
    rw [hend.node] at hinputs
    intro p hp
    refine hnew p ?_
    change p ∈ x.node.dependencies at hp
    rw [hinputs] at hp
    exact hp
  · have := hall.nodup List.nodup_nil
    rw [hend.node] at this
    exact this
  · have hprobed := (Gentle.ofMild (.probe value)).ok hprobe
    have hlowered := (Gentle.ofMild (.expression value)).ok hvalued
    have hassigned := (Gentle.ofMild (.assignTo _ _)).ok hassign
    have hclosed := (Gentle.ofMild (.emitSilent _ _)).ok hdepx
    have hsession := hprobed.session.trans (hlowered.session.trans (hrecorded.along.session.trans
      (hassigned.session.trans hclosed.session)))
    have hnodes := still_nodes hsession
    exact hnodes

end Diglot.Lowering
