import Diglot.Proofs.Guides.Statement
import Diglot.Proofs.Requests

/-! # Asking for guides adds only their counts

Two sessions whose options differ only in whether guides are asked for, and that get the same calls on trees without
guides, return the same and hold the same tables, graphs and diagnostics. Imperative code is the same, and all code is
but for the counts of guides and the debug records (`Session.serveAll_guides`).

`Counterparts` is what every call keeps of the two sessions, the second of which does not ask for guides.
-/

set_option autoImplicit false

namespace Diglot

open Lowering

/-! ## Calls -/

namespace Request

/-- If guides are asked for, none are written in the trees that the call is about. -/
def Suits (asks : Bool) : Request → Prop
  | .compile unit _ => ∀ n ∈ unit, n.Suits asks
  | .watchExpression _ n => n.Suits asks
  | _ => True

/-- No guides are written in the trees that the call is about. -/
abbrev Unguided (request : Request) : Prop := request.Suits true

theorem suits_false (request : Request) : request.Suits false := by
  cases request with
  | compile unit dialect => exact fun n _ => n.suits_false
  | watchExpression id n => exact n.suits_false
  | _ => trivial

theorem Unguided.suits {request : Request} (h : request.Unguided) (asks : Bool) : request.Suits asks := by
  cases asks with
  | false => exact request.suits_false
  | true => exact h

/-- The reply to the call, but for the place where the code of a watch expression begins. -/
def placeless : Request → Reply → Reply
  | .watchExpression _ _, .compiled (.ok _) => .compiled (.ok 0)
  | _, reply => reply

end Request

namespace Session

variable {s t u : Session} {asks : Bool}

/-! ## Two sessions -/

/-- The second session is what the first one would be if it did not ask for guides. -/
structure Counterparts (asks : Bool) (s t : Session) : Prop where
  guides : s.options.replicationGuides = asks
  fewer : s.Fewer t
  unfilled : s.counters.units = 0 → s.Proper 0

theorem Fewer.setMode (h : s.Fewer t) (on : Bool) :
    ({ s with isWatching := on } : Session).Fewer { t with isWatching := on } :=
  h.annotate (g := fun u => { u with isWatching := on }) fun _ => ⟨rfl, rfl, rfl, rfl⟩

namespace Counterparts

/-- What is changed beside the code is changed in both sessions. -/
theorem annotate (h : Counterparts asks s t) {g : Session → Session} (hg : ∀ u, Annotates g u)
    (hunits : ∀ u, (g u).counters.units = u.counters.units) : Counterparts asks (g s) (g t) := by
  refine ⟨(hg s).options ▸ h.guides, h.fewer.annotate hg, fun hzero => ?_⟩
  have hproper := h.unfilled ((hunits s).symm.trans hzero)
  have htext : (g s).text = s.text := text_of_blocks (hg s).blocks
  refine ⟨hzero, begun_of_blocks (hg s).blocks hproper.begun, nofun, ?_, nofun, ?_⟩
  · rw [htext]
    exact hproper.unfilled
  · rw [(hg s).watch]
    exact hproper.watch

theorem new (o : Options) :
    Counterparts o.replicationGuides (new o) (new { o with replicationGuides := false }) := by
  refine ⟨rfl, ⟨rfl, rfl, rfl, fun id b c hb _ => ?_, ?_⟩, fun _ => proper_new o⟩
  · cases hb
  · exact Array.map_empty.trans uncounted_empty.symm

theorem importSymbol (h : Counterparts asks s t) (name : String) (type : Ty) (library : String) :
    (t.importSymbol name type library).1 = (s.importSymbol name type library).1 ∧
      Counterparts asks (s.importSymbol name type library).2 (t.importSymbol name type library).2 := by
  have hempty : t.blocks.isEmpty = s.blocks.isEmpty := by simp only [Array.isEmpty, h.fewer.size]
  let start (u : Session) : Session := if u.blocks.isEmpty then u.addBlock .global .associative none else u
  have hstart : (start s).Fewer (start t) := by
    unfold start
    rw [hempty]
    split
    · exact h.fewer.addBlock _ _ _
    · exact h.fewer
  have hrest (u : Session) : (start u).options = u.options ∧ (start u).counters = u.counters := by
    unfold start
    split
    · exact ⟨rfl, rfl⟩
    · exact ⟨rfl, rfl⟩
  let x : Symbol := { name, type, library := some library, offset := (start s).counters.globals }
  let count (u : Session) : Session :=
    { u with counters := { u.counters with globals := u.counters.globals + x.size } }
  have hcount : (count (start s)).Fewer (count (start t)) :=
    hstart.annotate (g := count) fun _ => ⟨rfl, rfl, rfl, rfl⟩
  have hs : s.importSymbol name type library = (((((start s).block? 0).map fun b => b.symbols.size).getD 0),
    (count (start s)).modifyBlock 0 fun b => { b with symbols := b.symbols.append x }) := rfl
  have ht : t.importSymbol name type library = (((((start t).block? 0).map fun b => b.symbols.size).getD 0),
      (count (start t)).modifyBlock 0 fun b => { b with symbols := b.symbols.append x }) := by
    have hoffset : (start t).counters.globals = (start s).counters.globals := by rw [hstart.counters]
    unfold count x
    rw [← hoffset]
    rfl
  have hproper (hzero : (s.importSymbol name type library).2.counters.units = 0) :
      (s.importSymbol name type library).2.Proper 0 := by
    refine (h.unfilled ?_).importSymbol name type library
    rw [hs] at hzero
    rw [← hzero]
    exact (congrArg Counters.units (hrest s).2).symm
  refine ⟨?_, ⟨?_, ?_, hproper⟩⟩
  · rw [hs, ht]
    obtain ⟨hb, hc⟩ | ⟨b, c, hb, hc, hbc⟩ := hstart.block?_cases 0
    · rw [hb, hc]
    · rw [hb, hc]
      exact (congrArg SymbolTable.size hbc.symbols :)
  · rw [hs]
    exact (congrArg Options.replicationGuides (hrest s).1).trans h.guides
  · rw [hs, ht]
    refine hcount.modifyBlock 0 fun b c _ hbc => ?_
    exact hbc.alter (g := fun b => { b with symbols := b.symbols.append x }) (fun _ => rfl) fun _ => ⟨rfl, rfl, rfl⟩

/-! ## Compiling -/

theorem openUnit (h : Counterparts asks s t) (dialect : Dialect) :
    (t.openUnit dialect).1 = (s.openUnit dialect).1 ∧ (s.openUnit dialect).2.Fewer (t.openUnit dialect).2 ∧
      ((s.openUnit dialect).2.block? (s.openUnit dialect).1).map Block.dialect = some dialect := by
  have hempty : t.blocks.isEmpty = s.blocks.isEmpty := by simp only [Array.isEmpty, h.fewer.size]
  unfold Session.openUnit
  rw [h.fewer.counters, hempty]
  split
  · next hunits =>
    split
    · next hnone =>
      refine ⟨rfl, h.fewer.addBlock .global dialect none, ?_⟩
      rw [block?_addBlock_dialect, if_pos (Array.isEmpty_iff_size_eq_zero.mp hnone).symm]
    · next hsome =>
      refine ⟨rfl, h.fewer.modifyBlock 0 fun b c hb hbc => ?_, ?_⟩
      · -- The first block has no code yet, so the code is the same in whichever dialect.
        have htext : s.text 0 = some (b.kind, b.code) := by
          unfold text
          rw [hb]
          rfl
        obtain ⟨-, -, hcode⟩ := (h.unfilled hunits).unfilled rfl _ _ _ htext
        have hcode' : c.code = #[] := Array.map_eq_empty_iff.mp (hbc.code.trans (by rw [hcode, uncounted_empty]))
        refine ⟨?_, hbc.code, fun _ => hcode'.trans hcode.symm, hbc.begins⟩
        exact (congrArg (fun d : Block => { d with dialect }) hbc.outline :)
      · have hpos : 0 < s.blocks.size := by
          refine Nat.pos_of_ne_zero fun hzero => hsome ?_
          exact Array.isEmpty_iff_size_eq_zero.mpr hzero
        rw [block?_modifyBlock, if_pos rfl, block?, Array.getElem?_eq_getElem hpos]
        rfl
  · refine ⟨h.fewer.size, h.fewer.addBlock .global dialect (some 0), ?_⟩
    rw [block?_addBlock_dialect, if_pos rfl]

theorem compile (h : Counterparts asks s t) {unit : List Node} (hunit : ∀ n ∈ unit, n.Suits asks) (dialect : Dialect) :
    (t.compile unit dialect).1 = (s.compile unit dialect).1 ∧
      Counterparts asks (s.compile unit dialect).2 (t.compile unit dialect).2 := by
  have hquiet : Counterparts asks { s with isWatching := false } { t with isWatching := false } :=
    h.annotate (g := fun u => { u with isWatching := false }) (fun _ => ⟨rfl, rfl, rfl, rfl⟩) fun _ => rfl
  obtain ⟨hblock, hopen, hdialect⟩ := hquiet.openUnit dialect
  have hsame : (t.unitStart dialect).1 = (s.unitStart dialect).1 := hblock
  have hstart : (s.unitStart dialect).2.Fewer (t.unitStart dialect).2 := by
    exact (hopen.annotate (g := fun u => { u with counters := { u.counters with units := u.counters.units + 1 } })
      fun _ => ⟨rfl, rfl, rfl, rfl⟩).withLog _ _
  have hrest (u : Session) : (u.openUnit dialect).2.options = u.options ∧
      (u.openUnit dialect).2.isWatching = u.isWatching ∧ (u.openUnit dialect).2.counters = u.counters := by
    unfold Session.openUnit
    split
    · split
      · exact ⟨rfl, rfl, rfl⟩
      · exact ⟨rfl, rfl, rfl⟩
    · exact ⟨rfl, rfl, rfl⟩
  obtain ⟨hoptions, hwatching, hcounters⟩ := hrest { s with isWatching := false }
  let x : Ground :=
    { asks, isWatching := false, units := s.counters.units + 1
      dialect? := fun id => if id = (s.unitStart dialect).1 then some dialect else none }
  have hholds : x.Holds (s.unitStart dialect).2 := by
    refine ⟨?_, hwatching, congrArg (fun c : Counters => c.units + 1) hcounters, fun id d hd => ?_⟩
    · exact (congrArg Options.replicationGuides hoptions).trans h.guides
    · change (if id = (s.unitStart dialect).1 then some dialect else none) = some d at hd
      split at hd
      · next heq =>
        subst heq
        cases hd
        exact hdialect
      · cases hd
  let f := unitFrame (s.unitStart dialect).1 .global dialect unit
  have hbears : x.Bears f := ⟨fun _ => if_pos rfl, nofun⟩
  have hmeets : Meets x Eq (lowerCode unit f { session := (s.unitStart dialect).2 })
      (lowerCode unit f { session := (t.unitStart dialect).2 }) :=
    Lockstep.lowerCode rfl hbears (fun n hn => (hunit n hn).loweredAlike) _ _ hholds ⟨hstart, rfl, rfl, rfl, rfl⟩
  have hlater {v : Session} (hv : x.Holds v) (hzero : v.counters.units = 0) : v.Proper 0 :=
    absurd (hv.units.symm.trans hzero) (Nat.succ_ne_zero _)
  rw [compile_eq, compile_eq, hsame]
  change Meets x Eq (lowerCode unit (unitFrame _ _ _ _) _) _ at hmeets
  generalize lowerCode unit _ { session := (s.unitStart dialect).2 } = r at hmeets ⊢
  generalize lowerCode unit _ { session := (t.unitStart dialect).2 } = r' at hmeets ⊢
  cases hmeets with
  | ok _ huv hu => exact ⟨rfl, hu.guides, huv.session, hlater hu⟩
  | error huv hu => exact ⟨rfl, hu.guides, huv.session, hlater hu⟩

/-! ## Watching -/

theorem scopeOf (h : s.Fewer t) {b c : Block} (hbc : b.Fewer c) : t.scopeOf c = s.scopeOf b := by
  have hid : c.id = b.id := (congrArg Block.id hbc.outline :)
  have hprocedure : t.procedure? = s.procedure? := funext h.sameNames.procedure?_eq
  unfold Session.scopeOf
  rw [hbc.procedure, hid, hprocedure]

theorem watchExpression (h : Counterparts asks s t) (id : Nat) {n : Node} (hn : n.Suits asks) :
    (t.watchExpression id n).1.map (fun _ => 0) = (s.watchExpression id n).1.map (fun _ => 0) ∧
      Counterparts asks (s.watchExpression id n).2 (t.watchExpression id n).2 := by
  obtain ⟨hb, hc⟩ | ⟨b, c, hb, hc, hbc⟩ := h.fewer.block?_cases id
  · unfold Session.watchExpression
    rw [hb, hc]
    exact ⟨rfl, h⟩
  have hsite : t.watchSite id c = s.watchSite id b := by
    unfold watchSite
    rw [scopeOf h.fewer hbc, hbc.dialect]
  let x : Ground := { asks, isWatching := true, units := s.counters.units, dialect? := fun _ => none }
  have hbears : x.Bears (s.watchSite id b) := ⟨nofun, nofun⟩
  have hmeets : Meets x (fun _ _ => True)
      (lowerWatch n (s.watchSite id b) { session := { s with isWatching := true } })
      (lowerWatch n (s.watchSite id b) { session := { t with isWatching := true } }) :=
    Lockstep.lowerWatch hbears hn _ _ ⟨h.guides, rfl, rfl, nofun⟩ ⟨h.fewer.setMode true, rfl, rfl, rfl, rfl⟩
  have hproper (hzero : s.counters.units = 0) : (s.watchExpression id n).2.Proper 0 :=
    (h.unfilled hzero).watchExpression id n
  rw [watchExpression_eq hb] at hproper ⊢
  rw [watchExpression_eq hc, hsite]
  generalize lowerWatch n _ { session := { s with isWatching := true } } = r at hmeets hproper ⊢
  generalize lowerWatch n _ { session := { t with isWatching := true } } = r' at hmeets ⊢
  cases hmeets with
  | ok _ huv hu => exact ⟨rfl, hu.guides, huv.session.setMode false, fun hzero => hproper (hu.units.symm.trans hzero)⟩
  | error huv hu => exact ⟨rfl, hu.guides, huv.session.setMode false, fun hzero => hproper (hu.units.symm.trans hzero)⟩

/-! ## All calls -/

theorem serve (h : Counterparts asks s t) {request : Request} (hrequest : request.Suits asks) :
    request.placeless (t.serve request).1 = request.placeless (s.serve request).1 ∧
      Counterparts asks (s.serve request).2 (t.serve request).2 := by
  cases request with
  | setFile file =>
    refine ⟨rfl, h.annotate (g := fun u => u.setFile file) (fun _ => ⟨rfl, rfl, rfl, rfl⟩) fun _ => rfl⟩
  | setParsingModule on =>
    refine ⟨rfl, h.annotate (g := fun u => u.setParsingModule on) (fun _ => ⟨rfl, rfl, rfl, rfl⟩) fun _ => rfl⟩
  | importSymbol name type library =>
    obtain ⟨hindex, hsessions⟩ := h.importSymbol name type library
    exact ⟨congrArg (fun i => Reply.registered (some i)) hindex, hsessions⟩
  | addClass c =>
    simp only [Session.serve, addClass, h.fewer.classes]
    split
    · next classes _ =>
      refine ⟨rfl, h.annotate (g := fun u => { u with classes }) (fun _ => ⟨rfl, rfl, rfl, rfl⟩) fun _ => rfl⟩
    · exact ⟨rfl, h⟩
  | addMethod cls p =>
    have hclass : t.classes.get? cls = s.classes.get? cls := by rw [h.fewer.classes]
    cases hc : s.classes.get? cls with
    | none =>
      simp only [Session.serve, addMethod, hclass, hc]
      exact ⟨trivial, h⟩
    | some c =>
      simp only [Session.serve, addMethod, hclass, hc]
      refine ⟨trivial, h.annotate (g := fun u => { u with classes := u.classes.appendProcedure cls p })
        (fun _ => ⟨rfl, rfl, rfl, rfl⟩) fun _ => rfl⟩
  | addProcedure p =>
    refine ⟨?_, h.annotate (g := fun u => { u with procedures := u.procedures.append p })
      (fun _ => ⟨rfl, rfl, rfl, rfl⟩) fun _ => rfl⟩
    · exact congrArg (fun table : ProcedureTable => Reply.registered (some table.size)) h.fewer.procedures
  | compile unit dialect =>
    obtain ⟨hresult, hsessions⟩ := h.compile hrequest dialect
    exact ⟨congrArg Reply.compiled hresult, hsessions⟩
  | watchExpression id n =>
    obtain ⟨hresult, hsessions⟩ := h.watchExpression id hrequest
    have hplaceless (r : Except CompileError Nat) :
        (Request.watchExpression id n).placeless (.compiled r) = .compiled (r.map fun _ => 0) := by
      cases r <;> rfl
    refine ⟨?_, hsessions⟩
    exact (hplaceless _).trans ((congrArg Reply.compiled hresult).trans (hplaceless _).symm)

theorem serveAll (h : Counterparts asks s t) {requests : List Request} (hrequests : ∀ r ∈ requests, r.Suits asks) :
    List.zipWith Request.placeless requests (t.serveAll requests).1 =
        List.zipWith Request.placeless requests (s.serveAll requests).1 ∧
      Counterparts asks (s.serveAll requests).2 (t.serveAll requests).2 := by
  induction requests generalizing s t with
  | nil => exact ⟨rfl, h⟩
  | cons request rest ih =>
    obtain ⟨hreply, hnext⟩ := h.serve (hrequests request (List.mem_cons_self ..))
    obtain ⟨hreplies, hlast⟩ := ih hnext fun r hr => hrequests r (List.mem_cons_of_mem request hr)
    refine ⟨?_, hlast⟩
    change request.placeless (t.serve request).1 :: _ = request.placeless (s.serve request).1 :: _
    rw [hreply]
    exact congrArg _ hreplies

end Counterparts

/-! ## What the sessions have in common -/

/-- But for the counts of guides, the sessions hold the same. -/
structure SameButGuides (s t : Session) : Prop where
  classes : t.classes = s.classes
  procedures : t.procedures = s.procedures
  lateVariables : t.lateVariables = s.lateVariables
  lateFunctions : t.lateFunctions = s.lateFunctions
  diagnostics : t.diagnostics = s.diagnostics
  /-- The blocks are the same, with their symbols and with their nodes but for the ranges of these. -/
  blocks : ∀ id, (t.block? id).map Block.outline = (s.block? id).map Block.outline
  imperative : ∀ id b c, s.block? id = some b → t.block? id = some c → b.dialect = .imperative → c.code = b.code
  code : ∀ id b c, s.block? id = some b → t.block? id = some c → uncounted c.code = uncounted b.code
  watch : uncounted t.watch = uncounted s.watch

/-- No instruction of the session counts guides. -/
def CountsNoGuides (s : Session) : Prop :=
  (∀ id b, s.block? id = some b → ∀ i ∈ b.code, i.isGuideCount = false) ∧ ∀ i ∈ s.watch, i.isGuideCount = false

theorem Fewer.countsNoGuides (h : s.Fewer t) : t.CountsNoGuides := by
  refine ⟨fun id c hc => ?_, all_of_uncounted h.watch⟩
  obtain ⟨-, hnone⟩ | ⟨b, c', -, hc', hbc⟩ := h.block?_cases id
  · cases hnone.symm.trans hc
  · cases hc'.symm.trans hc
    exact all_of_uncounted hbc.code

theorem Fewer.sameButGuides (hs : s.Fewer u) (ht : t.Fewer u) : s.SameButGuides t := by
  refine ⟨ht.classes.symm.trans hs.classes, ht.procedures.symm.trans hs.procedures,
    ht.lateVariables.symm.trans hs.lateVariables, ht.lateFunctions.symm.trans hs.lateFunctions,
    ht.diagnostics.symm.trans hs.diagnostics, fun id => ?_, fun id b c hb hc hd => ?_, fun id b c hb hc => ?_,
    ht.watch.symm.trans hs.watch⟩
  · obtain ⟨hb, hd⟩ | ⟨b, d, hb, hd, hbd⟩ := hs.block?_cases id <;>
      obtain ⟨hc, hd'⟩ | ⟨c, d', hc, hd', hcd⟩ := ht.block?_cases id
    · rw [hb, hc]
    · cases hd.symm.trans hd'
    · cases hd.symm.trans hd'
    · cases hd.symm.trans hd'
      rw [hb, hc]
      exact congrArg some (hcd.outline.symm.trans hbd.outline)
  · obtain ⟨hnone, -⟩ | ⟨b', d, hb', hd', hbd⟩ := hs.block?_cases id
    · cases hnone.symm.trans hb
    cases hb'.symm.trans hb
    have hcd : c.Fewer d := ht.blocks id c d hc hd'
    exact (hcd.same (hcd.dialect.symm.trans (hbd.dialect.trans hd))).symm.trans (hbd.same hd)
  · obtain ⟨hnone, -⟩ | ⟨b', d, hb', hd', hbd⟩ := hs.block?_cases id
    · cases hnone.symm.trans hb
    cases hb'.symm.trans hb
    exact (ht.blocks id c d hc hd').code.symm.trans hbd.code

/-- Asking for guides adds only their counts: two sessions whose options differ only there, and that get the same calls
on trees without guides, return the same, but for the place of the code of watch expressions, and hold the same, but
for the counts. A session that does not ask for guides never counts any. -/
theorem serveAll_guides {o o' : Options}
    (h : ({ o with replicationGuides := false } : Options) = { o' with replicationGuides := false })
    {requests : List Request} (hrequests : ∀ r ∈ requests, r.Unguided) :
    List.zipWith Request.placeless requests ((new o).serveAll requests).1 =
        List.zipWith Request.placeless requests ((new o').serveAll requests).1 ∧
      ((new o).serveAll requests).2.SameButGuides ((new o').serveAll requests).2 ∧
      ∀ other : List Request, o'.replicationGuides = false → ((new o').serveAll other).2.CountsNoGuides := by
  obtain ⟨hreplies, hs⟩ := (Counterparts.new o).serveAll fun r hr => (hrequests r hr).suits _
  obtain ⟨hreplies', ht⟩ := (Counterparts.new o').serveAll fun r hr => (hrequests r hr).suits _
  rw [← h] at hreplies' ht
  refine ⟨hreplies.symm.trans hreplies', hs.fewer.sameButGuides ht.fewer, fun other hoff => ?_⟩
  have hself : ({ o' with replicationGuides := false } : Options) = o' := by rw [← hoff]
  have hsuits : ∀ r ∈ other, r.Suits o'.replicationGuides := fun r _ => hoff ▸ r.suits_false
  obtain ⟨-, hother⟩ := (Counterparts.new o').serveAll hsuits
  rw [hself] at hother
  exact hother.fewer.countsNoGuides

/-- A procedure, a call of it with a list, and another one that is watched. -/
def callRequests : List Request :=
  let call (arg : Node) : Node := .call { name := "f", args := [arg], dims := [], guides := [], span := .nil }
  let one : Node := .literal .int "1" .nil
  [.compile [.function (generated "f" [⟨"a", .var, none, .nil⟩] [.ret (some (bareName "a")) .nil]),
    .assign (bareName "x") (call (.list [one, one] [] [] .nil)) .nil] .associative, .watchExpression 0 (call one)]

theorem callRequests_unguided : ∀ r ∈ callRequests, r.Unguided := by
  have hname (name : String) : (bareName name).Unguided := .plain name .nil
  have hone : (Node.literal .int "1" .nil).Unguided := .of (fun _ => rfl) nofun
  have hlist : (Node.list [.literal .int "1" .nil, .literal .int "1" .nil] [] [] .nil).Unguided :=
    .of (fun _ => rfl) (by simpa [Node.parts] using hone)
  have hcall (arg : Node) (harg : arg.Unguided) : (Node.call ⟨"f", [arg], [], [], .nil⟩).Unguided :=
    .of (fun _ => rfl) (by simpa [Node.parts] using harg)
  have hbody : (Node.ret (some (bareName "a")) .nil).Unguided :=
    .of (fun _ => rfl) (by simpa [Node.parts] using hname "a")
  intro r hr
  obtain rfl | hr := List.mem_cons.mp hr
  · intro n hn
    obtain rfl | hn := List.mem_cons.mp hn
    · exact .of (fun _ => rfl) (by simpa [Node.parts, generated] using hbody)
    · rw [List.mem_singleton.mp hn]
      exact .assign (hname "x") (hcall _ hlist)
  · rw [List.mem_singleton.mp hr]
    exact hcall _ hone

/-- With guides asked for they are counted in the unit and in the watch expression, and the sessions hold the same
otherwise. -/
theorem callRequests_guides :
    let o : Options := { replicationGuides := true }
    let s := (new o).serveAll callRequests
    let t := (new {}).serveAll callRequests
    (∀ r ∈ callRequests, r.Unguided) ∧ ({ o with replicationGuides := false } : Options) = {} ∧
      s.2.blocks.any (fun b => b.code.any Instruction.isGuideCount) = true ∧
      s.2.watch.any Instruction.isGuideCount = true ∧
      List.zipWith Request.placeless callRequests s.1 = List.zipWith Request.placeless callRequests t.1 ∧
      s.2.SameButGuides t.2 ∧ t.2.CountsNoGuides := by
  intro o s t
  obtain ⟨hreplies, hsame, hnone⟩ := @serveAll_guides o {} rfl callRequests callRequests_unguided
  exact ⟨callRequests_unguided, rfl, by decide +kernel, by decide +kernel, hreplies, hsame, hnone callRequests rfl⟩

end Session

end Diglot
