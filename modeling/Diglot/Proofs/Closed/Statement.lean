import Diglot.Proofs.Closed.Laid

/-! # Units are closed

A statement lays out code in its own block (`laysOut`); its holes are the jumps that leave it. The
code of a unit has none left, and ends by leaving its block, so that the block is closed
(`lowerCode_closed`).
-/

set_option autoImplicit false

namespace Diglot

open Lowering

/-! ## Stretches of code that leave -/

/-- Plain code was written, and behind it an instruction that leaves. -/
def Ends (op : OpCode) (id : Nat) (s t : Session) : Prop :=
  ∃ (l : Array Instruction) (i : Instruction), (∀ j ∈ l, j.IsPlain) ∧ i.opcode = op ∧
    i.HasNoLabel ∧ Writes id (l.push i) s t

namespace Ends

variable {op : OpCode} {id : Nat} {s t u : Session}

theorem after (h : Wrote Instruction.IsPlain id s t) (h' : Ends op id t u) : Ends op id s u := by
  obtain ⟨l, hl, hw⟩ := h
  obtain ⟨l', i, hl', hop, hi, hw'⟩ := h'
  refine ⟨l ++ l', i, fun j hj => ?_, hop, hi, ?_⟩
  · rcases Array.mem_append.mp hj with hj | hj
    · exact hl j hj
    · exact hl' j hj
  · rw [Array.push_append]
    exact hw.trans hw'

theorem before (h : Ends op id s t) (h' : Wrote (fun _ => False) id t u) : Ends op id s u := by
  obtain ⟨l, i, hl, hop, hi, hw⟩ := h
  obtain ⟨l', hl', hw'⟩ := h'
  have hempty : l' = #[] := Array.eq_empty_iff_forall_not_mem.mpr fun j hj => hl' j hj
  subst hempty
  have hboth := hw.trans hw'
  rw [Array.append_empty] at hboth
  exact ⟨l, i, hl, hop, hi, hboth⟩

theorem laid {f : Frame} (hs : Seated f s) (h : Ends f.leave f.block s t) :
    Laid f.block f.leave s t [] := by
  obtain ⟨l, i, hl, hop, hi, hw⟩ := h
  refine .ofWrites hs.notWatching hs.inside hw fun j hj => ?_
  rcases Array.mem_push.mp hj with hj | rfl
  · exact (hl j hj).lawful _ _
  · exact ⟨fun _ => hop, hi.targets⟩

/-- The block of a unit is closed by a stretch that leaves. -/
theorem closed {f : Frame} (hs : Seated f s) (h : Laid f.block f.leave s t [])
    (h' : Ends f.leave f.block t u) {k : BlockKind} (hstart : s.text f.block = some (k, #[])) :
    ∃ code, u.text f.block = some (k, code) ∧ Closed k code := by
  obtain ⟨k', old, new, hold, hnew, hdraft⟩ := h.draft
  rw [hstart] at hold
  cases hold
  obtain ⟨k', code, hown, hleave⟩ := hs.own
  rw [hstart] at hown
  cases hown
  rw [← hleave] at hdraft h'
  obtain ⟨l, i, hl, hop, hi, hw⟩ := h'
  refine ⟨new ++ l.push i, ?_, hdraft.closed hl hop hi⟩
  rw [hw.own, hnew, (hs.laid h).notWatching]
  rfl

end Ends

namespace Lowering

variable {f : Frame} {s t : State}

theorem emitLeave_ends {p : Nat} (hs : Seated f s.session) (hrun : emitLeave f s = .ok p t) :
    Ends f.leave f.block s.session t.session := by
  simp only [emitLeave, run_bind, run_read] at hrun
  obtain ⟨_, debug, hw⟩ := emitStepping_written hs hrun
  refine ⟨#[], _, fun _ hj => absurd hj (Array.not_mem_empty _), ?_, ?_, hw⟩
  · rfl
  · intro o ho
    cases ho

/-- Plain code and then an instruction that leaves. -/
theorem ends_of_plain {α : Type} {m : Lower α} {a : α} {u : State} {p : Nat}
    (hm : Composed false False Instruction.IsPlain m) (hs : Seated f s.session)
    (hrun : m f s = .ok a u) (hleave : emitLeave f u = .ok p t) :
    Ends f.leave f.block s.session t.session :=
  .after (hm.wrote not_all_isPlain hrun) (emitLeave_ends (hs.laid (laid_of_plain hm hs hrun)) hleave)

theorem returnStatement_ends {value : Option Node} {span : Span} (hs : Seated f s.session)
    (hrun : returnStatement value span f s = .ok () t) :
    Ends f.leave f.block s.session t.session := by
  rw [returnStatement_eq] at hrun
  obtain ⟨⟨⟩, u, hu, hleave⟩ := bind_eq_ok.mp hrun
  obtain ⟨p, v, hv, hpure⟩ := bind_eq_ok.mp hleave
  cases hpure
  exact ends_of_plain (.lowerResult value span) hs hu hv

theorem lowerReturn_ends {value : Option Node} {span : Span} (hs : Seated f s.session)
    (hrun : lowerReturn value span f s = .ok () t) : Ends f.leave f.block s.session t.session := by
  obtain ⟨fresh, u, hu, hrun⟩ := bind_eq_ok.mp hrun
  obtain ⟨p, v, hv, hrun⟩ := bind_eq_ok.mp hrun
  have hfresh : Composed false False Instruction.IsPlain (freshNode false) :=
    fun _ _ hr => (Yields.freshNode false hr).course
  refine .after (hfresh.wrote not_all_isPlain hu) (.before ?_
    (Composed.wrote (m := do commit { p.2 with updated := some (returnPath (← classScope)) }) ?_
      (fun h => h (.bare .ret)) hrun))
  · obtain ⟨⟨⟩, x, hx, hv⟩ := bind_eq_ok.mp hv
    obtain ⟨⟨⟩, y, hy, hv⟩ := bind_eq_ok.mp hv
    obtain ⟨z, y', hget, hpure⟩ := bind_eq_ok.mp hv
    cases hx
    cases hget
    cases hpure
    have hseat := hs.laid (laid_of_plain hfresh hs hu)
    exact returnStatement_ends (f := { f with isTracked := true }) (s := { u with node := fresh })
      (hseat.site rfl) hy
  · refine .bind .classScope fun cls f s hr => ?_
    exact .commit (w := false) hr False.elim

theorem result_ends {o : Operand} (ho : o.isLabel = false) (hs : Seated f s.session)
    (hrun : (do
      let _ ← emitPush o 0 .nil
      let _ ← emitResult .nil) f s = .ok () t) : Ends f.leave f.block s.session t.session := by
  have hplain : Composed false False Instruction.IsPlain (do
      let _ ← emitPush o 0 .nil
      emitPop (.register .rx) (← classScope) .nil) :=
    .bind (.emitPush ho _ _) fun _ => .bind .classScope fun _ => .emitPop rfl _ _
  obtain ⟨p, u, hu, hrun⟩ := bind_eq_ok.mp hrun
  obtain ⟨q, v, hv, hpure⟩ := bind_eq_ok.mp hrun
  cases hpure
  obtain ⟨cls, u', hcls, hv⟩ := bind_eq_ok.mp hv
  cases hcls
  obtain ⟨r, x, hx, hleave⟩ := bind_eq_ok.mp hv
  exact ends_of_plain hplain hs (bind_eq_ok.mpr ⟨p, _, hu, hx⟩) hleave

/-- A unit is closed by a stretch of code that leaves, unless it ends with a return. -/
theorem closeUnit_ends {unit : List Node} (hs : Seated f s.session)
    (hrun : closeUnit unit f s = .ok () t) :
    Ends f.leave f.block s.session t.session ∨
      t = s ∧ ∃ before value span, unit = before ++ [.ret value span] := by
  obtain ⟨frame, s', hread, hrun⟩ := bind_eq_ok.mp hrun
  cases hread
  rw [run_ite] at hrun
  split at hrun
  · obtain ⟨p, u, hu, hpure⟩ := bind_eq_ok.mp hrun
    cases hpure
    exact .inl (emitLeave_ends hs hu)
  rw [run_ite] at hrun
  split at hrun
  · next hret =>
    cases hrun
    refine .inr ⟨rfl, ?_⟩
    cases hlast : unit.getLast? with
    | none =>
      rw [hlast] at hret
      cases hret
    | some n =>
      rw [hlast] at hret
      obtain ⟨before, hbefore⟩ := List.getLast?_eq_some_iff.mp hlast
      cases n with
      | ret value span => exact ⟨before, value, span, hbefore⟩
      | _ => cases hret
  · left
    obtain ⟨procedure, v, hv, hrun⟩ := bind_eq_ok.mp hrun
    cases hv
    rw [run_ite] at hrun
    split at hrun
    · exact result_ends rfl hs hrun
    · exact result_ends rfl hs hrun

/-! ## Statements and lists -/

/-- The jumps that wait for their target. -/
def Exits.holes (e : Exits) : List Nat := e.breaks ++ e.continues

theorem Exits.holes_append (x y : Exits) : (x.holes ++ y.holes).Perm (x.append y).holes := by
  simp only [holes, append, List.append_assoc]
  refine List.Perm.append_left _ ?_
  rw [← List.append_assoc, ← List.append_assoc]
  exact List.Perm.append_right _ List.perm_append_comm

/-- A step that went through laid out code whose holes are the jumps that leave it. No jump leaves a
statement outside of loops. -/
def LaidOut (f : Frame) (s t : State) (exits : Exits) : Prop :=
  Laid f.block f.leave s.session t.session exits.holes ∧ (f.inLoop = false → exits = .none)

/-- Wherever the statement is lowered to the end, it lays out its code. -/
def LaysOut (n : Node) : Prop :=
  ∀ f s t exits, Seated f s.session → statement n f s = .ok exits t → LaidOut f s t exits

theorem laidOut_all {nodes : List Node} (h : ∀ n ∈ nodes, LaysOut n) {exits : Exits}
    (hs : Seated f s.session) (hrun : lowerAll statement nodes f s = .ok exits t) :
    LaidOut f s t exits := by
  induction nodes generalizing s exits with
  | nil =>
    cases hrun
    exact ⟨.ofAside (.ofSilent (.refl _)) hs.inside, fun _ => rfl⟩
  | cons n rest ih =>
    obtain ⟨x, u, hn, hrest⟩ := bind_eq_ok.mp hrun
    obtain ⟨y, v, hall, hpure⟩ := bind_eq_ok.mp hrest
    cases hpure
    obtain ⟨hfirst, hnone⟩ := h n (List.mem_cons_self ..) f s u x hs hn
    obtain ⟨hlast, hnone'⟩ := ih (fun m hm => h m (List.mem_cons_of_mem n hm)) (hs.laid hfirst) hall
    refine ⟨(hfirst.trans hlast).perm (x.holes_append y), fun hloop => ?_⟩
    rw [hnone hloop, hnone' hloop]
    rfl

theorem lowerAll_append_ok {before after : List Node} {exits : Exits}
    (hrun : lowerAll statement (before ++ after) f s = .ok exits t) :
    ∃ x u y, lowerAll statement before f s = .ok x u ∧ lowerAll statement after f u = .ok y t := by
  induction before generalizing s exits with
  | nil => exact ⟨.none, s, exits, rfl, hrun⟩
  | cons n rest ih =>
    obtain ⟨x, u, hn, hrest⟩ := bind_eq_ok.mp hrun
    obtain ⟨y, v, hall, hpure⟩ := bind_eq_ok.mp hrest
    cases hpure
    obtain ⟨x', u', y', hx', hy'⟩ := ih hall
    exact ⟨x.append x', u', y', bind_eq_ok.mpr ⟨x, u, hn, bind_eq_ok.mpr ⟨x', u', hx', rfl⟩⟩, hy'⟩

theorem statement_cases (n : Node) (f : Frame) (s : State) :
    f.dialect = .associative ∧
        statement n f s = plain (associativeStatement statement n) f s ∨
      f.dialect = .imperative ∧ statement n f s = imperativeStatement statement n f s := by
  rw [statement_eq]
  cases hd : f.dialect with
  | associative => exact .inl ⟨rfl, by simp only [lowerStatement, run_bind, run_read, hd]⟩
  | imperative => exact .inr ⟨rfl, by simp only [lowerStatement, run_bind, run_read, hd]⟩

theorem ret_ends {value : Option Node} {span : Span} {exits : Exits} (hs : Seated f s.session)
    (hrun : statement (.ret value span) f s = .ok exits t) :
    Ends f.leave f.block s.session t.session ∧ exits = .none := by
  rcases statement_cases (.ret value span) f s with ⟨_, h⟩ | ⟨_, h⟩
  · rw [h] at hrun
    obtain ⟨⟨⟩, u, hu, hpure⟩ := bind_eq_ok.mp hrun
    cases hpure
    exact ⟨lowerReturn_ends hs hu, rfl⟩
  · rw [h] at hrun
    obtain ⟨⟨⟩, u, hu, hpure⟩ := bind_eq_ok.mp hrun
    cases hpure
    exact ⟨returnStatement_ends hs hu, rfl⟩

/-! ## Units -/

/-- The block of a unit is closed once the unit is lowered. -/
theorem lowerCode_closed {unit : List Node} (h : ∀ n ∈ unit, LaysOut n) (hs : Seated f s.session)
    (hloop : f.inLoop = false) {k : BlockKind} (hstart : s.session.text f.block = some (k, #[]))
    (hrun : lowerCode unit f s = .ok () t) :
    Beside (· = f.block) s.session t.session ∧
      ∃ code, t.session.text f.block = some (k, code) ∧ Closed k code := by
  obtain ⟨exits, u, hall, hclose⟩ := bind_eq_ok.mp hrun
  obtain ⟨hlaid, hnone⟩ := laidOut_all h hs hall
  rw [hnone hloop] at hlaid
  have hseat := hs.laid hlaid
  have hown : ∀ j, j = f.block → j < s.session.blocks.size := fun j hj => hj ▸ hs.inside
  rcases closeUnit_ends hseat hclose with hends | ⟨rfl, before, value, span, rfl⟩
  · exact ⟨hlaid.beside.trans hown (hends.laid hseat).beside, hends.closed hs hlaid hstart⟩
  · -- The return at the end is the stretch that leaves.
    obtain ⟨x, v, y, hbefore, hret⟩ := lowerAll_append_ok hall
    obtain ⟨hlaid', hnone'⟩ :=
      laidOut_all (fun n hn => h n (List.mem_append_left _ hn)) hs hbefore
    rw [hnone' hloop] at hlaid'
    obtain ⟨z, w, hz, hrest⟩ := bind_eq_ok.mp hret
    obtain ⟨z', w', hnil, hpure⟩ := bind_eq_ok.mp hrest
    cases hnil
    cases hpure
    exact ⟨hlaid.beside, (ret_ends (hs.laid hlaid') hz).1.closed hs hlaid' hstart⟩

end Lowering

/-! ## Blocks, procedures and classes -/

namespace Session

theorem text_addBlock (s : Session) (kind : BlockKind) (dialect : Dialect) (parent : Option Nat)
    (j : Nat) :
    (s.addBlock kind dialect parent).text j =
      if j = s.blocks.size then some (kind, #[]) else s.text j := by
  have hpush (b : Block) : ({ s with blocks := s.blocks.push b } : Session).text j =
      if j = s.blocks.size then some (b.kind, b.code) else s.text j := by
    simp only [text, block?, Array.getElem?_push]
    split <;> rfl
  cases parent with
  | none => exact hpush _
  | some p =>
    refine (congrFun (text_modifyBlock ?_ ?_ _ p) j).trans (hpush _)
    · exact fun _ => rfl
    · exact fun _ => rfl

theorem text_openBlock (s : Session) (f : Frame) (dialect : Dialect) (j : Nat) :
    (s.openBlock f dialect).text j =
      if j = s.blocks.size then some (.language, #[]) else s.text j := by
  unfold openBlock
  refine (congrFun (text_modifyBlock ?_ ?_ _ _) j).trans (text_addBlock ..)
  · exact fun _ => rfl
  · exact fun _ => rfl

theorem Begun.addBlock {s : Session} (h : s.Begun) (kind : BlockKind) (dialect : Dialect)
    (parent : Option Nat) : (s.addBlock kind dialect parent).Begun := by
  have hpush (b : Block) (hb : b.entry = none) (hc : b.code = #[]) :
      ({ s with blocks := s.blocks.push b } : Session).Begun := by
    intro j c hj
    simp only [block?, Array.getElem?_push] at hj
    split at hj
    · cases hj
      simp [hb, hc]
    · exact h j c hj
  cases parent with
  | none => exact hpush _ rfl rfl
  | some p =>
    refine modifyBlock (s := { s with blocks := _ }) ?_
      (hpush { id := s.blocks.size, kind, dialect, parent := some p } rfl rfl) p
    exact fun _ hb => hb

theorem begun_openBlock {s : Session} (h : s.Begun) (f : Frame) (dialect : Dialect) :
    (s.openBlock f dialect).Begun := by
  refine Begun.modifyBlock ?_ (h.addBlock .language dialect (some f.block)) s.blocks.size
  exact fun _ hb => hb

theorem begun_of_blocks {s t : Session} (h : t.blocks = s.blocks) (hs : s.Begun) : t.Begun := by
  intro id b hb
  unfold block? at hb
  rw [h] at hb
  exact hs id b hb

theorem begun_openProcedure {s : Session} (h : s.Begun) (f : Frame) (p : Procedure)
    (message : String) : (s.openProcedure f p message).Begun := by
  have hregister : (s.register f.scope p).Begun := begun_of_blocks (blocks_register s f.scope p) h
  have hopen := (hregister.addBlock .function f.dialect (some f.block)).modifyBlock
    (g := fun b => { b with procedure := some (s.nextProcedure f.scope) }) (fun _ hb => hb) s.blocks.size
  exact begun_of_blocks (blocks_modifyProcedure _ _ _) hopen

theorem watch_openProcedure (s : Session) (f : Frame) (p : Procedure) (message : String) :
    (s.openProcedure f p message).watch = s.watch := by
  change (modifyProcedure _ _ _).watch = _
  have hregister : (s.register f.scope p).watch = s.watch := by
    unfold register
    split <;> rfl
  unfold modifyProcedure
  split <;> exact hregister

theorem text_of_blocks {s t : Session} (h : t.blocks = s.blocks) : t.text = s.text := by
  funext j
  simp only [text, block?, h]

theorem text_openProcedure (s : Session) (f : Frame) (p : Procedure) (message : String) (j : Nat) :
    (s.openProcedure f p message).text j =
      if j = s.blocks.size then some (.function, #[]) else s.text j := by
  have hblocks : (s.openProcedure f p message).blocks =
      (((s.register f.scope p).addBlock .function f.dialect (some f.block)).modifyBlock
        s.blocks.size fun b => { b with procedure := some (s.nextProcedure f.scope) }).blocks :=
    blocks_modifyProcedure _ _ _
  rw [text_of_blocks hblocks]
  refine (congrFun (text_modifyBlock ?_ ?_ _ _) j).trans ((text_addBlock ..).trans ?_)
  · exact fun _ => rfl
  · exact fun _ => rfl
  · rw [blocks_register, text_of_blocks (blocks_register s f.scope p)]

end Session

/-- A block that is opened, filled and closed leaves the other blocks alone. -/
theorem Aside.ofUnit {s t u : Session} {k k' : BlockKind} {code : Array Instruction}
    (hw : t.isWatching = s.isWatching) (hu : t.counters.units = s.counters.units)
    (htext : ∀ j, t.text j = if j = s.blocks.size then some (k, #[]) else s.text j)
    (hbegun : s.Begun → t.Begun) (hwatch : t.watch = s.watch)
    (h : Beside (· = s.blocks.size) t u) (hown : u.text s.blocks.size = some (k', code))
    (hclosed : Closed k' code) : Aside s u := by
  have hsome (j : Nat) : j < t.blocks.size ↔ j = s.blocks.size ∨ j < s.blocks.size := by
    rw [← Session.text_isSome, htext]
    split
    · next heq => simp [heq]
    · next hne => simp [Session.text_isSome, hne]
  have hsize := (hsome s.blocks.size).mpr (.inl rfl)
  have hle := h.size_le
  refine ⟨h.isWatching.trans hw, h.units.trans hu,
    fun hnot => (h.watch (hw.trans hnot)).trans hwatch, by omega, fun j hj _ => ?_,
    fun j k code hj hj' => ?_, h.begun ∘ hbegun⟩
  · rw [h.old j ((hsome j).mpr (.inr hj)) (by omega), htext, if_neg (by omega)]
  · by_cases heq : j = s.blocks.size
    · subst heq
      rw [hown] at hj'
      cases hj'
      exact hclosed
    · refine h.added j k code (Nat.le_of_not_lt fun hlt => ?_) hj'
      rcases (hsome j).mp hlt with hlt | hlt
      · exact heq hlt
      · omega

namespace Lowering

variable {f : Frame} {s t : State}

/-- The frame of a language block is seated in the new block. -/
theorem seated_openBlock (hs : Seated f s.session) (dialect : Dialect) (body : List Node) :
    Seated (unitFrame s.session.blocks.size f.scope dialect body)
      (s.session.openBlock f dialect) := by
  have hblock : (s.session.block? f.block).isSome := by simp [Session.block?, hs.inside]
  have hmode := (Opens.block (f := f) dialect hblock).isWatching_eq
  refine ⟨hmode.trans hs.notWatching, ⟨.language, #[], ?_, ?_⟩, fun b hb => ?_⟩
  · exact (s.session.text_openBlock f dialect _).trans (if_pos rfl)
  · have hnot : f.scope.isBody s.session.blocks.size = false := by
      refine beq_eq_false_iff_ne.mpr fun hbody => ?_
      exact absurd (hs.body _ hbody) (Nat.lt_irrefl _)
    simp [Frame.leave, unitFrame, hnot, BlockKind.leave]
  · have := hs.body b hb
    simp only [Session.openBlock, Session.size_blocks_modifyBlock, Session.size_blocks_addBlock]
    omega

theorem seated_openProcedure (hblock : (s.session.block? f.block).isSome)
    (hcls : ∀ cls, Session.ownerClass f.scope = some cls → (s.session.classes.get? cls).isSome)
    (hw : s.session.isWatching = false) (p : Procedure) (message : String) (body : List Node) :
    Seated (bodyUnit f s.session body) (s.session.openProcedure f p message) := by
  have hmode := (Opens.procedure (f := f) p message hblock hcls).isWatching_eq
  have hstart : (s.session.openProcedure f p message).text s.session.blocks.size =
      some (.function, #[]) := (s.session.text_openProcedure f p message _).trans (if_pos rfl)
  refine ⟨hmode.trans hw, ⟨.function, #[], hstart, ?_⟩, fun b hb => ?_⟩
  · simp [Frame.leave, bodyUnit, unitFrame, bodyFrame, Scope.isBody, BlockKind.leave]
  · cases hb
    exact (Session.text_isSome _ _).mp (by rw [hstart]; rfl)

theorem lowerInner_aside {dialect : Dialect} {body : List Node} {id : Nat}
    (h : ∀ n ∈ body, LaysOut n) (hs : Seated f s.session)
    (hrun : lowerInner dialect body f s = .ok id t) : Aside s.session t.session := by
  have hblock : (s.session.block? f.block).isSome := by simp [Session.block?, hs.inside]
  have hopen := Opens.block (f := f) dialect hblock
  have htext := s.session.text_openBlock f dialect
  have hstart : (s.session.openBlock f dialect).text s.session.blocks.size =
      some (.language, #[]) := by rw [htext, if_pos rfl]
  rw [lowerInner_run dialect body hblock] at hrun
  split at hrun
  · next u hcode =>
    cases hrun
    obtain ⟨hbeside, code, hown, hclosed⟩ :=
      lowerCode_closed (f := unitFrame s.session.blocks.size f.scope dialect body)
        (s := { session := s.session.openBlock f dialect }) h (seated_openBlock hs dialect body) rfl
        hstart hcode
    refine .ofUnit hopen.isWatching_eq ?_ htext (fun h => Session.begun_openBlock h f dialect) rfl
      hbeside hown hclosed
    simp [Session.openBlock, Session.modifyBlock]
  · cases hrun

theorem lowerBody_aside {fn : Function} {p : Procedure} (h : ∀ n ∈ fn.body, LaysOut n)
    (hw : s.session.isWatching = false) (hrun : lowerBody statement fn p f s = .ok () t) :
    Aside s.session t.session := by
  rcases lowerBody_cases fn p f s with ⟨hblock, hcls, hcase⟩ | ⟨_, d, u, hcase, _⟩
  case inr =>
    rw [hcase] at hrun
    cases hrun
  let start := s.session.openProcedure f p (bodyMessage fn.name s.session.blocks.size)
  have hopen := Opens.procedure p (bodyMessage fn.name s.session.blocks.size) hblock hcls
  have htext : ∀ j, start.text j =
      if j = s.session.blocks.size then some (.function, #[]) else s.session.text j :=
    s.session.text_openProcedure f p _
  have hstart : start.text s.session.blocks.size = some (.function, #[]) := by
    rw [htext, if_pos rfl]
  have hseat : Seated (bodyUnit f s.session fn.body) start :=
    seated_openProcedure hblock hcls hw p _ fn.body
  have hinside : s.session.blocks.size < start.blocks.size := hseat.inside
  rw [hcase] at hrun
  split at hrun
  · next u hcode =>
    obtain ⟨⟨⟩, v, hparams, hcode⟩ := bind_eq_ok.mp hcode
    have hdeclare : Composed false False (fun _ => False) (declareParams p.args) :=
      .forM fun p _ => .bind (.allocate _) fun _ => .pure _
    have hparams' := aside_of_composed hdeclare hparams
    have hv := hparams'.old _ hinside not_false
    have hlaid : Laid _ .ret _ _ [] := .ofAside hparams' hinside
    have hseat' := hseat.laid hlaid
    obtain ⟨hbeside, code, hown, hclosed⟩ :=
      lowerCode_closed h hseat' rfl (hv.trans hstart) hcode
    have hall := (hparams'.mono fun j hj => hj.elim).trans (fun j hj => hj ▸ hinside) hbeside
    have haside := Aside.ofUnit hopen.isWatching_eq ?_ htext
      (fun h => Session.begun_openProcedure h f p _) (Session.watch_openProcedure ..) hall hown hclosed
    · simp only [run_bind, run_getBlock, run_modifySession] at hrun
      refine haside.trans (.ofSilent ?_)
      split at hrun
      · next heq =>
        split at heq
        · cases heq
          cases hrun
          refine ⟨?_, ?_, ?_, ?_, ?_, ?_⟩
          · rw [Session.text_of_blocks (Session.blocks_modifyProcedure _ _ _)]
            rfl
          · unfold Session.modifyProcedure
            split <;> rfl
          · rw [Session.isWatching_modifyProcedure]
            rfl
          · unfold Session.modifyProcedure
            split <;> rfl
          · rw [Session.counters_modifyProcedure]
            rfl
          · exact Session.begun_of_blocks (Session.blocks_modifyProcedure _ _ _)
        · cases heq
      · cases hrun
    · change (Session.modifyProcedure _ _ _).counters.units = _
      simp [Session.modifyBlock]
  · cases hrun

/-- Whatever the step writes goes to blocks that it adds. -/
def Tucks {α : Type} (m : Lower α) : Prop :=
  ∀ f s t a, s.session.isWatching = false → m f s = .ok a t → Aside s.session t.session

namespace Tucks

variable {α β : Type}

theorem ofComposed {m : Lower α} (hm : Composed false False (fun _ => False) m) : Tucks m :=
  fun _ _ _ _ _ hrun => aside_of_composed hm hrun

theorem bind {m : Lower α} {k : α → Lower β} (hm : Tucks m) (hk : ∀ a, Tucks (k a)) :
    Tucks (m >>= k) := by
  intro f s t b hw hrun
  obtain ⟨a, u, hu, ht⟩ := bind_eq_ok.mp hrun
  have hfirst := hm f s u a hw hu
  exact hfirst.trans (hk a f u t b (hfirst.isWatching.trans hw) ht)

theorem lowerFunction {fn : Function} (h : ∀ n ∈ fn.body, LaysOut n) (isGenerated : Bool) :
    Tucks (lowerFunction statement fn isGenerated) := by
  rw [lowerFunction_eq]
  refine bind (ofComposed (.resolveType _ _)) fun _ => bind (ofComposed (.resolveParams _)) fun _ => ?_
  refine bind (ofComposed (.lowerAttributes _)) fun _ => ?_
  exact fun _ _ _ _ hw hrun => lowerBody_aside h hw hrun

theorem lowerClass {c : ClassDecl} (h : ∀ n : Node, n.weight < c.weight → LaysOut n) :
    Tucks (lowerClass statement c) := by
  have hbody : Tucks (lowerClassBody statement c) := by
    refine lowerClassBody_rule (J := Tucks) (ofComposed (.pure _)) (fun hm hk => bind hm fun _ => hk) c
      (ofComposed (.lowerMembers _)) fun fn isGenerated hfn => ?_
    exact lowerFunction (fun n hn => h n (hfn n hn)) isGenerated
  refine bind (ofComposed fun _ _ hr => (Yields.resolveBase c hr).course) fun base => ?_
  refine bind (ofComposed (.lowerAttributes _)) fun attributes => ?_
  refine bind (ofComposed .getSession) fun s => ?_
  split
  · intro f s t a _ hrun
    cases hrun
  · refine bind ?_ fun _ => bind (ofComposed (.note _ _ _)) fun _ => ?_
    · intro f s t a _ hrun
      cases hrun
      exact .ofSilent ⟨rfl, rfl, rfl, rfl, rfl, id⟩
    · exact fun f s t a hw hrun => hbody _ s t a hw hrun

theorem lowerTopLevelClass {c : ClassDecl} (h : ∀ n : Node, n.weight < c.weight → LaysOut n) :
    Tucks (lowerTopLevelClass statement c) := by
  refine bind (ofComposed (.bind .read fun f => ?_)) fun may => ?_
  · exact .bind (fun _ _ _ => .getBlock False.elim) fun _ => .pure _
  · split
    · exact lowerClass h
    · intro f s t a _ hrun
      cases hrun

end Tucks

/-! ## All statements -/

theorem laidOut_of_laid {m : Lower Unit} {exits : Exits}
    (h : ∀ u, m f s = .ok () u → Laid f.block f.leave s.session u.session [])
    (hrun : plain m f s = .ok exits t) : LaidOut f s t exits := by
  obtain ⟨⟨⟩, u, hu, hpure⟩ := bind_eq_ok.mp hrun
  cases hpure
  exact ⟨h _ hu, fun _ => rfl⟩

theorem lowerBlock_laid {dialect : Dialect} {body : List Node} {span : Span}
    (h : ∀ n ∈ body, LaysOut n) (hs : Seated f s.session)
    (hrun : lowerBlock statement dialect body span f s = .ok () t) :
    Laid f.block f.leave s.session t.session [] := by
  rw [lowerBlock_eq] at hrun
  obtain ⟨child, u, hu, hrun⟩ := bind_eq_ok.mp hrun
  have hinner : Laid f.block f.leave s.session u.session [] :=
    .ofAside (lowerInner_aside h hs hu) hs.inside
  obtain ⟨b, v, hv, hrun⟩ := bind_eq_ok.mp hrun
  rw [run_getBlock] at hv
  split at hv
  · cases hv
    refine hinner.trans (laid_of_plain ?_ (hs.laid hinner) hrun)
    exact .bind (.emitBounce _ _ _) fun _ => .pure _
  · cases hv

section
variable {body otherwise : List Node} {condition : Node} {span : Span} {exits : Exits}
  (hbody : ∀ n ∈ body, LaysOut n)
include hbody

theorem lowerIf_laidOut (hs : Seated f s.session)
    (hrun : lowerIf statement body span f s = .ok exits t) : LaidOut f s t exits := by
  obtain ⟨branch, u, hu, hrun⟩ := bind_eq_ok.mp hrun
  have hbranch := emitJz_laid hs hu
  obtain ⟨x, v, hv, hrun⟩ := bind_eq_ok.mp hrun
  obtain ⟨hinner, hnone⟩ := laidOut_all hbody (hs.laid hbranch) hv
  have hlaid := hbranch.trans hinner
  have hseat := hs.laid hlaid
  obtain ⟨p, v', hpc, hrun⟩ := bind_eq_ok.mp hrun
  obtain ⟨rfl, rfl⟩ := pc_seated hseat hpc
  obtain ⟨⟨⟩, w, hw, hpure⟩ := bind_eq_ok.mp hrun
  cases hpure
  exact ⟨(patch_laid hlaid hseat.notWatching (Nat.le_refl _) hw).1, hnone⟩

theorem lowerIfElse_laidOut (hother : ∀ n ∈ otherwise, LaysOut n) (hs : Seated f s.session)
    (hrun : lowerIfElse statement body otherwise span f s = .ok exits t) : LaidOut f s t exits := by
  obtain ⟨p, s', hpc, hrun⟩ := bind_eq_ok.mp hrun
  obtain ⟨rfl, rfl⟩ := pc_seated hs hpc
  obtain ⟨branch, u, hu, hrun⟩ := bind_eq_ok.mp hrun
  have hbranch := emitCjmp_laid hs hu
  obtain ⟨x, v, hv, hrun⟩ := bind_eq_ok.mp hrun
  obtain ⟨hfirst, hnone⟩ := laidOut_all hbody (hs.laid hbranch) hv
  have hlaid := hbranch.trans hfirst
  obtain ⟨skip, w, hw, hrun⟩ := bind_eq_ok.mp hrun
  have hskip := hlaid.trans (emitHole_laid (hs.laid hlaid) hw)
  have hseat := hs.laid hskip
  obtain ⟨p, w', hpc, hrun⟩ := bind_eq_ok.mp hrun
  obtain ⟨rfl, rfl⟩ := pc_seated hseat hpc
  obtain ⟨⟨⟩, a, ha, hrun⟩ := bind_eq_ok.mp hrun
  have hfilled := (patch_laid hskip hseat.notWatching (Nat.le_refl _) ha).1
  obtain ⟨y, b, hb, hrun⟩ := bind_eq_ok.mp hrun
  obtain ⟨hsecond, hnone'⟩ := laidOut_all hother (hs.laid hfilled) hb
  have hboth := hfilled.trans hsecond
  have hseat' := hs.laid hboth
  obtain ⟨p, b', hpc, hrun⟩ := bind_eq_ok.mp hrun
  obtain ⟨rfl, rfl⟩ := pc_seated hseat' hpc
  obtain ⟨⟨⟩, c, hc, hpure⟩ := bind_eq_ok.mp hrun
  cases hpure
  have hperm : ((x.holes ++ [skip]) ++ y.holes).Perm (skip :: (x.holes ++ y.holes)) := by
    rw [List.append_assoc]
    exact List.perm_middle
  refine ⟨(patch_laid (hboth.perm hperm) hseat'.notWatching (Nat.le_refl _) hc).1.perm
    (x.holes_append y), fun hloop => ?_⟩
  rw [hnone hloop, hnone' hloop]
  rfl

theorem lowerWhile_laid (hs : Seated f s.session)
    (hrun : lowerWhile statement condition body span f s = .ok () t) :
    Laid f.block f.leave s.session t.session [] := by
  obtain ⟨start, s', hpc, hrun⟩ := bind_eq_ok.mp hrun
  obtain ⟨rfl, rfl⟩ := pc_seated hs hpc
  obtain ⟨⟨⟩, u, hcond, hrun⟩ := bind_eq_ok.mp hrun
  have htest := laid_of_plain (.lowerCondition condition span) hs hcond
  have hseat := hs.laid htest
  obtain ⟨p, u', hpc, hrun⟩ := bind_eq_ok.mp hrun
  obtain ⟨rfl, rfl⟩ := pc_seated hseat hpc
  obtain ⟨branch, v, hv, hrun⟩ := bind_eq_ok.mp hrun
  have hbranch := htest.trans (emitCjmp_laid hseat hv)
  obtain ⟨x, w, hw, hrun⟩ := bind_eq_ok.mp hrun
  have hinner := (laidOut_all hbody (f := { f with inLoop := true })
    ((hs.laid hbranch).site rfl) hw).1
  have hlaid := hbranch.trans hinner
  -- The body goes on at the condition, which stands at or before the end of the code.
  have hperm : (([] ++ [branch]) ++ x.holes).Perm (x.continues ++ (branch :: x.breaks)) := by
    rw [List.nil_append, List.singleton_append]
    refine (List.Perm.cons _ List.perm_append_comm).trans ?_
    exact List.perm_middle.symm
  have hstart {c : State} {holes : List Nat}
      (h : Laid f.block f.leave s'.session c.session holes) :
      (s'.session.stream f.block).size ≤ (c.session.stream f.block).size := by
    obtain ⟨k, old, new, hold, hnew, hdraft⟩ := h.draft
    rw [Session.stream_of_text hs.notWatching hold,
      Session.stream_of_text (hs.laid h).notWatching hnew]
    exact hdraft.keeps.size_le
  obtain ⟨⟨⟩, a, ha, hrun⟩ := bind_eq_ok.mp hrun
  have hcontinues := (patchAll_laid (hlaid.perm hperm) (hs.laid hlaid).notWatching
    (hstart hlaid) ha).1
  obtain ⟨q, b, hb, hrun⟩ := bind_eq_ok.mp hrun
  have hback := hcontinues.trans (emitJmp_laid (hs.laid hcontinues) (hstart hcontinues) hb)
  rw [List.append_nil] at hback
  obtain ⟨e, b', hpc, hrun⟩ := bind_eq_ok.mp hrun
  obtain ⟨rfl, rfl⟩ := pc_seated (hs.laid hback) hpc
  obtain ⟨⟨⟩, c, hc, hrun⟩ := bind_eq_ok.mp hrun
  obtain ⟨hexit, hsize⟩ := patch_laid hback (hs.laid hback).notWatching (Nat.le_refl _) hc
  rw [← List.append_nil x.breaks] at hexit
  exact (patchAll_laid hexit (hs.laid hexit).notWatching (by omega) hrun).1

end

theorem lowerExit_laidOut {keyword : String} {span : Span} {exits : Nat → Exits} {e : Exits}
    (hexits : ∀ p, (exits p).holes = [p]) (hs : Seated f s.session)
    (hrun : lowerExit keyword span exits f s = .ok e t) : LaidOut f s t e := by
  obtain ⟨frame, s', hread, hrun⟩ := bind_eq_ok.mp hrun
  cases hread
  rw [run_ite] at hrun
  split at hrun
  · obtain ⟨_, _, hhalt, _⟩ := bind_eq_ok.mp hrun
    cases hhalt
  · next hloop =>
    obtain ⟨p, u, hu, hpure⟩ := bind_eq_ok.mp hrun
    cases hpure
    refine ⟨?_, fun hnot => ?_⟩
    · rw [hexits p]
      exact emitHole_laid hs hu
    · rw [hnot] at hloop
      exact absurd rfl hloop

/-- Every statement lays out its code. The induction is on the weight of the statement. -/
theorem laysOut (n : Node) : LaysOut n := by
  induction hk : n.weight using Nat.strongRecOn generalizing n with
  | ind k ih =>
    subst hk
    have hlight : ∀ m : Node, m.weight < n.weight → LaysOut m := fun m hm => ih _ hm m rfl
    have hlist {nodes : List Node} (hlt : Node.weights nodes < n.weight) : ∀ m ∈ nodes, LaysOut m :=
      fun m hm => hlight m (Nat.lt_of_le_of_lt (Node.weight_le_weights hm) hlt)
    intro f s t exits hs hrun
    have hplain {m : Lower Unit} (hm : Composed false False Instruction.IsPlain m)
        (hrun : plain m f s = .ok exits t) : LaidOut f s t exits :=
      laidOut_of_laid (fun u hu => laid_of_plain hm hs hu) hrun
    have htucked {m : Lower Unit} (hm : Tucks m) (hrun : plain m f s = .ok exits t) :
        LaidOut f s t exits :=
      laidOut_of_laid (fun u hu => .ofAside (hm f s u () hs.notWatching hu) hs.inside) hrun
    have hfunction (fn : Function) (hfn : n = .function fn) :
        Tucks (lowerFunction statement fn false) := by
      refine .lowerFunction (fun m hm => hlight m ?_) false
      have := weight_body_lt hm
      rw [hfn, Node.weight]
      omega
    have hblock {dialect : Dialect} {body : List Node} {span : Span}
        (hn : n = .block dialect body span)
        (hrun : plain (lowerBlock statement dialect body span) f s = .ok exits t) :
        LaidOut f s t exits := by
      refine laidOut_of_laid (fun u hu => lowerBlock_laid (hlist ?_) hs hu) hrun
      rw [hn, Node.weight]
      omega
    rcases statement_cases n f s with ⟨_, hst⟩ | ⟨_, hst⟩
    · rw [hst] at hrun
      cases n with
      | assign target value span => exact hplain (.lowerUpdate _ _ _) hrun
      | ret value span => exact laidOut_of_laid (fun u hu => (lowerReturn_ends hs hu).laid hs) hrun
      | varDecl v => exact hplain (.lowerVariable v) hrun
      | function fn => exact htucked (hfunction fn rfl) hrun
      | classDecl c =>
        refine htucked (.lowerTopLevelClass fun m hm => hlight m ?_) hrun
        rw [Node.weight]
        omega
      | block dialect body span => exact hblock rfl hrun
      | branch | loop | breakLoop | continueLoop =>
        obtain ⟨_, _, hhalt, _⟩ := bind_eq_ok.mp hrun
        cases hhalt
      | _ => exact hplain (.lowerUnnamed _) hrun
    · rw [hst] at hrun
      cases n with
      | assign target value span => exact hplain (.lowerAssignment _ _) hrun
      | ret value span =>
        exact laidOut_of_laid (fun u hu => (returnStatement_ends hs hu).laid hs) hrun
      | branch condition body otherwise span =>
        simp only [Node.weight] at hlist
        obtain ⟨⟨⟩, u, hcond, hrun⟩ := bind_eq_ok.mp hrun
        have htest := laid_of_plain (.lowerCondition condition span) hs hcond
        rw [run_ite] at hrun
        split at hrun
        · obtain ⟨hlaid, hnone⟩ := lowerIf_laidOut (hlist (by omega)) (hs.laid htest) hrun
          exact ⟨htest.trans hlaid, hnone⟩
        · obtain ⟨hlaid, hnone⟩ :=
            lowerIfElse_laidOut (hlist (by omega)) (hlist (by omega)) (hs.laid htest) hrun
          exact ⟨htest.trans hlaid, hnone⟩
      | loop condition body span =>
        simp only [Node.weight] at hlist
        exact laidOut_of_laid (fun u hu => lowerWhile_laid (hlist (by omega)) hs hu) hrun
      | breakLoop span => exact lowerExit_laidOut (fun _ => rfl) hs hrun
      | continueLoop span => exact lowerExit_laidOut (fun _ => rfl) hs hrun
      | varDecl v => exact hplain (.lowerVariable v) hrun
      | block dialect body span => exact hblock rfl hrun
      | function fn => exact htucked (hfunction fn rfl) hrun
      | classDecl c => cases hrun
      | _ => exact hplain (.lowerDiscarded _) hrun

end Lowering

end Diglot
