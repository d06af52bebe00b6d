import Diglot.Proofs.Law.Store

/-! # Statements keep a law

Blocks are opened without code, and the code of a body is lowered in a frame of its own, whose class
scope is that of its procedure. A jump that is patched keeps what the law has to say about it.
-/

set_option autoImplicit false

namespace Diglot.Lowering

variable {L : Law} {o : Stage} {α β : Type} {f : Frame} {s : State}

/-! ## Jumps -/

/-- Code where an instruction is replaced by one that is allowed wherever it is. -/
theorem Law.Holds.replaceCode {s : Session} (h : L.Holds o s) {block pending : Nat}
    {i j : Instruction} (hi : (s.stream block)[pending]? = some i)
    (hst : s.Widens (s.replaceCode block pending j))
    (hij : ∀ ctx, L.allows ctx s i → L.allows ctx s j) : L.Holds o (s.replaceCode block pending j) := by
  refine h.widens hst fun ctx k hk => ?_
  have hnew (hold : s.Carries o ctx i) : L.allows ctx (s.replaceCode block pending j) j :=
    L.widens hst (hij ctx (h ctx i hold))
  unfold Session.stream at hi
  cases hw : s.isWatching with
  | true =>
    have heq : s.replaceCode block pending j = { s with watch := s.watch.setIfInBounds pending j } :=
      if_pos hw
    rw [if_pos hw] at hi
    rw [heq] at hk hnew ⊢
    cases hk with
    | block hb hk => exact .inl (.block hb hk)
    | @watch q k hon hq hk =>
      have hplaced : (s.watch.setIfInBounds pending j)[q]? = some k := hk
      rw [Array.getElem?_setIfInBounds] at hplaced
      split at hplaced
      · next heq =>
        subst heq
        split at hplaced
        · cases hplaced
          exact .inr (hnew (.watch hon hq hi))
        · cases hplaced
      · exact .inl (.watch hon hq hplaced)
  | false =>
    have hw' : ¬ s.isWatching = true := by rw [hw]; decide
    have heq : s.replaceCode block pending j =
        s.modifyBlock block fun b => { b with code := b.code.setIfInBounds pending j } := if_neg hw'
    rw [if_neg hw'] at hi
    rw [heq] at hk hnew ⊢
    cases hk with
    | watch hon hq hk => exact .inl (.watch hon hq hk)
    | @block id b k hid hk =>
      rw [Session.block?_modifyBlock] at hid
      split at hid
      · next heq =>
        subst heq
        obtain ⟨c, hc, rfl⟩ := Option.map_eq_some_iff.mp hid
        rw [hc] at hi
        have hold {k : Instruction} (hk : k ∈ c.code) :
            s.Carries o (c.procedure.bind ProcRef.classScope) k := .block hc hk
        rcases Array.mem_or_eq_of_mem_setIfInBounds hk with hk | rfl
        · exact .inl (hold hk)
        · have hi' : c.code[pending]? = some i := hi
          exact .inr (hnew (hold (Array.mem_of_getElem? hi')))
      · exact .inl (.block hid hk)

namespace Heeds

/-- A patched jump is allowed where the jump was. -/
theorem patch (hr : Primed o.isWatching f s) (pending target : Nat) :
    Heeds L o f s (patch pending target) := by
  rcases patch_cases pending target f s with ⟨i, j, hi, hj, hrun⟩ | ⟨d, hrun⟩
  case inr => exact .stops hrun
  have hchange : Change (fun _ => True) f s.session (s.session.replaceCode f.block pending j) :=
    .patch hi hj trivial
  refine ⟨fun _ t ht => ?_, fun hs => ?_⟩
  · rw [hrun] at ht
    cases ht
    exact ⟨hr.widens (hr.change hchange) hchange.widens, hchange.widens⟩
  · rw [hrun]
    exact Law.Holds.replaceCode hs hi hchange.widens fun ctx => L.patch hj

theorem patchAll (hr : Primed o.isWatching f s) (pending : List Nat) (target : Nat) :
    Heeds L o f s (patchAll pending target) := .forM hr fun p _ _ ht => .patch ht p target

end Heeds

/-! ## Lists of statements -/

theorem Heeding.lowerAll {nodes : List Node} (h : ∀ n ∈ nodes, Heeding L o (statement n)) :
    Heeding L o (lowerAll statement nodes) := by
  induction nodes with
  | nil => exact .pure _
  | cons n rest ih =>
    refine .bind (h n (List.mem_cons_self ..)) fun _ => .bind (ih fun m hm => ?_) fun _ => .pure _
    exact h m (List.mem_cons_of_mem n hm)

theorem Heeding.closeUnit (unit : List Node) : Heeding L o (closeUnit unit) := by
  have hresult : Heeding L o (emitResult .nil) :=
    .bind (.silent .classScope) fun _ => .bind (.neutral (Neutral.emitPop rfl _ _)) fun _ => .emitLeave
  refine .bind (.silent .read) fun f => ?_
  refine .ite (.bind .emitLeave fun _ => .pure _) (.ite (.pure _) ?_)
  refine .bind (.silent .currentProcedure?) fun p => .ite ?_ ?_
  · exact .bind (.neutral (Neutral.emitPush rfl _ _)) fun _ => .bind hresult fun _ => .pure _
  · exact .bind (.neutral (Neutral.emitPush rfl _ _)) fun _ => .bind hresult fun _ => .pure _

theorem Heeding.lowerCode {unit : List Node} (h : ∀ n ∈ unit, Heeding L o (statement n)) :
    Heeding L o (lowerCode unit) := .bind (.lowerAll h) fun _ => .closeUnit unit

/-! ## Frames of their own -/

namespace Law.Holds

variable {s : Session}

theorem openBlock (h : L.Holds o s) (f : Frame) (dialect : Dialect) :
    L.Holds o (s.openBlock f dialect) := by
  refine h.ofText (s.widens_openBlock f dialect) rfl fun id k code hid => ?_
  rw [Session.text_openBlock] at hid
  split at hid
  · cases hid
    exact .inl rfl
  · exact .inr hid

theorem openProcedure (h : L.Holds o s) (f : Frame) (p : Procedure) (message : String) :
    L.Holds o (s.openProcedure f p message) := by
  have hwatch := Session.watch_openProcedure s f p message
  refine h.ofText (s.widens_openProcedure f p message) hwatch fun id k code hid => ?_
  rw [Session.text_openProcedure] at hid
  split at hid
  · cases hid
    exact .inl rfl
  · exact .inr hid

end Law.Holds

namespace Heeds

theorem lowerInner {body : List Node} (hbody : Heeding L o (lowerCode body)) (dialect : Dialect)
    (h : Poised o f s) : Heeds L o f s (lowerInner dialect body) := by
  have hopen := s.session.widens_openBlock f dialect
  have hstart := h.ready.widens (h.ready.openBlock dialect body) hopen
  have hinner := hbody _ _ ⟨hstart, h.own, h.scope⟩
  have hrun := lowerInner_run dialect body h.ready.stands.block?_isSome
  refine ⟨fun id t ht => ?_, fun hs => ?_⟩
  · rw [hrun] at ht
    split at ht
    · next u hu =>
      cases ht
      obtain ⟨hready, hwidens⟩ := hinner.done _ u hu
      have hall := hopen.trans hwidens
      exact ⟨h.ready.widens (h.ready.outer hready.tidy hall.grows hready.mode) hall, hall⟩
    · cases ht
  · have hkept := hinner.keeps (Law.Holds.openBlock hs f dialect)
    rw [hrun]
    revert hkept
    rcases Lowering.lowerCode body _ _ with ⟨_, u⟩ | ⟨_, u⟩ <;> exact id

theorem lowerBlock {body : List Node} (hbody : Heeding L o (lowerCode body)) (dialect : Dialect)
    (span : Span) (h : Poised o f s) : Heeds L o f s (lowerBlock statement dialect body span) := by
  rw [lowerBlock_eq]
  refine .bind (.lowerInner hbody dialect h) fun child t _ ht _ => ?_
  refine .withBlock fun b _ => ?_
  exact Heeding.bind (.neutral (Neutral.emitBounce _ _ _)) (fun _ => .pure _) f t (h.next ht)

end Heeds

/-! ## Procedures -/

/-- Finishing a procedure writes no code. -/
theorem Law.Holds.finish {s : Session} (h : L.Holds o s) (body : Nat) (r : ProcRef) (locals n : Nat)
    (f : Frame) (u : State) :
    L.Holds o (final ((do
      let entry := (← getBlock body).entry
      modifySession fun u => u.modifyProcedure r fun p => { p with entry, locals }) f
      { u with session := s.setLocals n })) := by
  have hlocals : L.Holds o (s.setLocals n) :=
    h.ofText (.ofTables rfl rfl rfl) rfl fun _ _ _ hid => .inr hid
  simp only [run_bind, run_getBlock]
  cases Session.block? _ body with
  | none => exact hlocals
  | some b =>
    refine hlocals.ofText (Session.widens_modifyProcedure _ r fun p => ⟨p.block, _, _, rfl⟩) ?_ ?_
    · change (Session.modifyProcedure _ _ _).watch = _
      unfold Session.modifyProcedure
      split <;> rfl
    · intro id k code hid
      have htext := Session.text_of_blocks (Session.blocks_modifyProcedure (s.setLocals n) r
        fun p => { p with entry := b.entry, locals })
      exact .inr (htext ▸ hid)

/-- The body of a procedure runs in the scope of its class, wherever the procedure is declared. -/
theorem Heeds.lowerBody (ho : o.isWatching = false) {fn : Function} {p : Procedure}
    (hentry : p.entry = none) (h : ∀ n ∈ fn.body, Heeding L o (statement n))
    (hr : Primed o.isWatching f s) : Heeds L o f s (lowerBody statement fn p) := by
  have hr' : Primed false f s := ho ▸ hr
  have hcourse := Composed.lowerBody (D := True) hentry (fun n (_ : n ∈ fn.body) => steady n) f s
    fun _ => hr'.toReady
  refine ⟨fun a t => ho ▸ hcourse.primed hr', fun hs => ?_⟩
  have hinner : Heeding L o (do
      declareParams p.args
      lowerCode fn.body) := by
    refine .bind (.silent (.forM fun _ _ => ?_)) fun _ => .lowerCode h
    exact .bind (.allocate _) fun _ => .pure _
  have hopen := s.session.widens_openProcedure f p (bodyMessage fn.name s.session.blocks.size)
  have hstart := hr.widens (hr.openProcedure p _ fn.body) hopen
  have hkept := (hinner _ _ ⟨hstart, rfl, fun hw => by rw [ho] at hw; cases hw⟩).keeps
    (Law.Holds.openProcedure hs f p _)
  rw [hr.run_lowerBody fn p]
  revert hkept
  generalize (declareParams p.args >>= fun _ => Lowering.lowerCode fn.body) _ _ = r
  rcases r with ⟨_, t⟩ | ⟨_, t⟩
  · exact fun hkept => Law.Holds.finish hkept _ _ _ _ _ _
  · exact fun hkept => hkept.ofText (.ofTables rfl rfl rfl) rfl fun _ _ _ hid => .inr hid

theorem Heeds.lowerFunction (ho : o.isWatching = false) {fn : Function}
    (h : ∀ n ∈ fn.body, Heeding L o (statement n)) (isGenerated : Bool)
    (hr : Primed o.isWatching f s) : Heeds L o f s (lowerFunction statement fn isGenerated) := by
  rw [lowerFunction_eq]
  refine .bind (.silent hr (.resolveType _ _)) fun _ t _ ht _ => ?_
  refine .bind (.silent ht (.resolveParams _)) fun _ u _ hu _ => ?_
  exact .bind (.silent hu (.lowerAttributes _)) fun _ v _ hv _ => .lowerBody ho rfl h hv

/-! ## Classes -/

/-- The body of a class is lowered in the scope of the class, which is that of no procedure. -/
theorem Heeds.lowerClassBody (ho : o.isWatching = false) {c : ClassDecl}
    (h : ∀ n : Node, n.weight < c.weight → Heeding L o (statement n))
    (hr : Primed o.isWatching f s) : Heeds L o f s (lowerClassBody statement c) := by
  refine lowerClassBody_rule (J := fun m => ∀ f s, Primed o.isWatching f s → Heeds L o f s m)
    (fun _ _ hr => .pure hr _) (fun hm hk f s hr => ?_) c (fun _ _ hr => ?_)
    (fun fn isGenerated hfn f s hr => ?_) f s hr
  · exact .bind (hm f s hr) fun _ t _ ht _ => hk f t ht
  · exact .silent hr (.lowerMembers _)
  · exact .lowerFunction ho (fun n hn => h n (hfn n hn)) isGenerated hr

theorem Heeds.lowerClass (ho : o.isWatching = false) {c : ClassDecl}
    (h : ∀ n : Node, n.weight < c.weight → Heeding L o (statement n))
    (hp : f.scope.procedure = none) (hr : Primed o.isWatching f s) :
    Heeds L o f s (lowerClass statement c) := by
  have hbase := Yields.resolveBase (D := True) (P := fun _ => False) c fun _ => hr.toReady
  refine .bind (.quiet hr hbase.course) fun base t hrun ht _ => ?_
  have hbound := hbase.result base t hrun trivial
  refine .bind (.silent ht (.lowerAttributes _)) fun attributes v _ hv htv => .withSession ?_
  split
  · exact .silent hv (.halt rfl _ _)
  · next classes happend =>
    have hadd : Course True Anything f v (modifySession fun u => { u with classes }) := by
      refine .addClass _ (fun _ => trivial) hp rfl rfl (fun _ b hb => ?_) happend
      exact Nat.lt_of_lt_of_le (hbound b hb) htv.size
    have hwidens := Session.widens_appendClass SymbolTable.indexed_empty happend
    have hclass : Heeds L o f v (modifySession fun u => { u with classes }) :=
      ⟨fun a x => hadd.primed hv, fun hs => hs.ofText hwidens rfl fun _ _ _ hid => .inr hid⟩
    refine .bind hclass fun _ x hx hready _ => ?_
    cases hx
    refine .bind (.silent hready (.note _ _ _)) fun _ y hy hready' _ => ?_
    cases hy
    have hcls : (classes.get? v.session.classes.size).isSome := ClassTable.isSome_get?_append? happend
    have hstart := hready'.widens (hready'.inClass hp hcls) (.refl _)
    have hbody := lowerClassBody ho h hstart (L := L)
    refine ⟨fun a z hz => ?_, hbody.keeps⟩
    obtain ⟨hz', hwidens'⟩ := hbody.done a z hz
    have hback : Ready o.isWatching f z :=
      ⟨hz'.tidy, hready'.stands.grows hwidens'.grows, hz'.neat, hz'.mode⟩
    exact ⟨hready'.widens hback hwidens', hwidens'⟩

theorem Heeding.lowerTopLevelClass (ho : o.isWatching = false) {c : ClassDecl}
    (h : ∀ n : Node, n.weight < c.weight → Heeding L o (statement n)) :
    Heeding L o (lowerTopLevelClass statement c) := by
  intro f s hs
  have hmay : Course True (fun _ => False) f s mayDeclareClass :=
    .withFrame (.bind (.getBlock fun _ => hs.ready.toReady.stands.block?_isSome) fun _ _ _ => .pure _)
  refine .bind (.quiet hs.ready hmay) fun may t hrun ht _ => ?_
  split
  · next htrue => exact .lowerClass ho h (mayDeclareClass_ok htrue hrun).1 ht
  · exact .silent ht (.halt rfl _ _)

/-! ## Control flow -/

namespace Heeding

section
variable {body otherwise : List Node} {condition : Node} {span : Span}

theorem emitJmp (target : Option Nat) (span : Span) : Heeding L o (emitJmp target span) :=
  neutral (.emitStepping (fun _ => Instruction.isNeutral_unary .jmp rfl) _ _)

theorem emitCjmp (holds : Nat) (span : Span) :
    Heeding L o (emitCjmp (.register .cx) holds span) := by
  refine bind (silent .getSession) fun _ => ite (neutral (.emitSilent (fun _ => ?_) _))
    (neutral (.emitStepping (fun _ => ?_) _ _))
  · exact Instruction.isNeutral_ternary .cjmp rfl rfl rfl
  · exact Instruction.isNeutral_ternary .cjmp rfl rfl rfl

theorem patch (pending target : Nat) : Heeding L o (Lowering.patch pending target) :=
  fun _ _ h => .patch h.ready pending target

theorem patchAll (pending : List Nat) (target : Nat) :
    Heeding L o (Lowering.patchAll pending target) :=
  fun _ _ h => .patchAll h.ready pending target

theorem lowerIf (hbody : ∀ n ∈ body, Heeding L o (statement n)) :
    Heeding L o (lowerIf statement body span) := by
  refine bind (neutral (.emitStepping (fun _ => ?_) _ _)) fun _ => bind (lowerAll hbody) fun _ => ?_
  · exact Instruction.isNeutral_binary .jz rfl rfl
  · exact bind (silent .pc) fun _ => bind (patch _ _) fun _ => pure _

theorem lowerIfElse (hbody : ∀ n ∈ body, Heeding L o (statement n))
    (hother : ∀ n ∈ otherwise, Heeding L o (statement n)) :
    Heeding L o (lowerIfElse statement body otherwise span) := by
  refine bind (silent .pc) fun _ => bind (emitCjmp _ _) fun _ => bind (lowerAll hbody) fun _ => ?_
  refine bind (emitJmp _ _) fun _ => bind (silent .pc) fun _ => bind (patch _ _) fun _ => ?_
  refine bind (lowerAll hother) fun _ => bind (silent .pc) fun _ => ?_
  exact bind (patch _ _) fun _ => pure _

theorem lowerWhile (hbody : ∀ n ∈ body, Heeding L o (statement n)) :
    Heeding L o (lowerWhile statement condition body span) := by
  refine bind (silent .pc) fun _ => bind (lowerCondition _ _) fun _ => bind (silent .pc) fun _ => ?_
  refine bind (emitCjmp _ _) fun _ => bind (withReader ?_ (lowerAll hbody)) fun _ => ?_
  · exact fun _ => rfl
  refine bind (patchAll _ _) fun _ => bind (emitJmp _ _) fun _ => bind (silent .pc) fun _ => ?_
  exact bind (patch _ _) fun _ => patchAll _ _

theorem lowerExit {keyword : String} {exits : Nat → Exits} :
    Heeding L o (lowerExit keyword span exits) := by
  refine bind (silent .read) fun _ => onlyIf (silent (.halt rfl _ _)) ?_
  exact bind (emitJmp _ _) fun _ => pure _

end

theorem plain {m : Lower Unit} (hm : Heeding L o m) : Heeding L o (Lowering.plain m) :=
  bind hm fun _ => pure _

/-! ## All statements -/

/-- Every statement keeps the law. The induction is on the weight of the statement. -/
theorem statement (ho : o.isWatching = false) (n : Node) : Heeding L o (Lowering.statement n) := by
  induction hk : n.weight using Nat.strongRecOn generalizing n with
  | ind k ih =>
    subst hk
    have hlight : ∀ m : Node, m.weight < n.weight → Heeding L o (Lowering.statement m) :=
      fun m hm => ih _ hm m rfl
    have hlist {nodes : List Node} (hlt : Node.weights nodes < n.weight) :
        ∀ m ∈ nodes, Heeding L o (Lowering.statement m) :=
      fun m hm => hlight m (Nat.lt_of_le_of_lt (Node.weight_le_weights hm) hlt)
    have hfunction (fn : Function) (hfn : n = .function fn) :
        Heeding L o (Lowering.plain (lowerFunction Lowering.statement fn false)) := by
      refine plain fun f s h => .lowerFunction ho (fun m hm => hlight m ?_) false h.ready
      have := weight_body_lt hm
      rw [hfn, Node.weight]
      omega
    have hblock {dialect : Dialect} {body : List Node} {span : Span}
        (hn : n = .block dialect body span) :
        Heeding L o (Lowering.plain (lowerBlock Lowering.statement dialect body span)) := by
      refine plain fun f s h => .lowerBlock (.lowerCode (hlist ?_)) dialect span h
      rw [hn, Node.weight]
      omega
    rw [statement_eq]
    refine bind (silent .read) fun f => ?_
    cases f.dialect with
    | associative =>
      cases n with
      | assign target value span => exact plain (lowerUpdate _ _ _)
      | ret value span => exact plain (lowerReturn _ _)
      | varDecl v => exact plain (lowerVariable v)
      | function fn => exact hfunction fn rfl
      | classDecl c =>
        refine plain (lowerTopLevelClass ho fun m hm => hlight m ?_)
        rw [Node.weight]
        omega
      | block dialect body span => exact hblock rfl
      | branch | loop | breakLoop | continueLoop => exact plain (silent (.halt rfl _ _))
      | _ => exact plain (lowerUnnamed _)
    | imperative =>
      cases n with
      | assign target value span => exact plain (lowerAssignment _ _)
      | ret value span => exact plain (returnStatement _ _)
      | branch condition body otherwise span =>
        simp only [Node.weight] at hlist
        refine bind (lowerCondition _ _) fun _ => ite ?_ ?_
        · exact lowerIf (hlist (by omega))
        · exact lowerIfElse (hlist (by omega)) (hlist (by omega))
      | loop condition body span =>
        simp only [Node.weight] at hlist
        exact plain (lowerWhile (hlist (by omega)))
      | breakLoop span => exact lowerExit
      | continueLoop span => exact lowerExit
      | varDecl v => exact plain (lowerVariable v)
      | block dialect body span => exact hblock rfl
      | function fn => exact hfunction fn rfl
      | classDecl c => exact silent (.halt rfl _ _)
      | _ => exact plain (lowerDiscarded _)

/-- The value of a watch expression goes to a symbol of its own. -/
theorem lowerWatch (node : Node) : Heeding L o (lowerWatch node) := by
  refine bind (silent .pc) fun entry => bind (expression node) fun _ => ?_
  refine bind (silent (.nextTemporary _)) fun name f s h => ?_
  obtain ⟨r, x, hrun, hx, hmember⟩ := run_allocate_own h.ready.toReady h.own { name, type := .var }
  refine .bind (.silent h.ready (.allocate _)) fun r' t hrun' ht _ => .withSymbol fun y hy => ?_
  rw [hrun] at hrun'
  cases hrun'
  rw [hx] at hy
  cases hy
  have hpopw : Composed o.isWatching True (·.Accesses x) (emitPopw x) :=
    .emitSilent (fun debug => .watched ⟨debug, rfl⟩) _
  refine .bind (.accesses (h.next ht) hpopw fun j hj => L.declared hx hmember hj) fun _ u _ hu _ => ?_
  refine bind (neutral (.emit (fun _ => ?_) _)) (fun _ => pure _) f u (h.next hu)
  exact Instruction.isNeutral_bare .retcn

end Heeding

end Diglot.Lowering
