import Diglot.Proofs.Origins.Store
import Diglot.Proofs.Law.Statement

/-! # Statements keep a property

A jump that is patched refers to nothing, before and after. The code of a language block, of a procedure and
of a class is lowered inside of the block around it, which goes on to run the language block.
-/

set_option autoImplicit false

namespace Diglot.Lowering

variable {K : Keeper false} {path : List Nat} {α β : Type} {f : Frame} {s : State}

/-! ## Jumps and lists of statements -/

/-- Of a jump only the target is patched. -/
theorem Keeping.patch (pending target : Nat) : Keeping K (Lowering.patch pending target) := by
  intro path f s h
  rcases patch_cases pending target f s with ⟨i, j, hi, hj, hrun⟩ | ⟨d, hrun⟩
  case inr => exact .stops hrun
  have hcourse : Course True Anything f s (Lowering.patch pending target) :=
    .patch (fun _ => trivial) fun _ => ⟨i, j, hi, hj⟩
  refine .ofCourse h.toPrimed hcourse fun hs => ?_
  rw [hrun]
  exact K.patch rfl h hi hj hs

theorem Keeping.patchAll (pending : List Nat) (target : Nat) :
    Keeping K (Lowering.patchAll pending target) := .forM fun p _ => .patch p target

theorem Keeping.lowerAll {nodes : List Node} (h : ∀ n ∈ nodes, Keeping K (statement n)) :
    Keeping K (lowerAll statement nodes) := by
  induction nodes with
  | nil => exact .pure _
  | cons n rest ih =>
    refine .bind (h n (List.mem_cons_self ..)) fun _ => .bind (ih fun m hm => ?_) fun _ => .pure _
    exact h m (List.mem_cons_of_mem n hm)

theorem Keeping.closeUnit (unit : List Node) : Keeping K (closeUnit unit) := by
  have hresult : Keeping K (emitResult .nil) :=
    .bind (.silent .classScope) fun _ => .bind (.plain (Standalone.emitPop _ _ _)) fun _ => .emitLeave
  refine .bind (.silent .read) fun f => ?_
  refine .ite (.bind .emitLeave fun _ => .pure _) (.ite (.pure _) ?_)
  refine .bind (.silent .currentProcedure?) fun p => .ite ?_ ?_
  · exact .bind (.plain (Standalone.emitPush _ _ _)) fun _ => .bind hresult fun _ => .pure _
  · exact .bind (.plain (Standalone.emitPush _ _ _)) fun _ => .bind hresult fun _ => .pure _

theorem Keeping.lowerCode {unit : List Node} (h : ∀ n ∈ unit, Keeping K (statement n)) :
    Keeping K (lowerCode unit) := .bind (.lowerAll h) fun _ => .closeUnit unit

/-! ## Frames of their own -/

namespace Protects

/-- A language block is lowered inside of the current one, which runs it. -/
theorem lowerBlock {body : List Node} (hbody : Keeping K (lowerCode body)) (dialect : Dialect)
    (span : Span) (h : Nested false path f s) : Protects K path f s (lowerBlock statement dialect body span) := by
  let child := s.session.blocks.size
  have hopen := Session.Advances.openBlock h.stands.placed dialect
  have hstart := h.widens (h.toReady.openBlock dialect body) hopen.toWidens
  have hinner := hbody (child :: path) _ _ ⟨hstart, rfl⟩
  have hrun := lowerInner_run dialect body h.stands.block?_isSome
  rw [lowerBlock_eq]
  cases hcode : Lowering.lowerCode body (unitFrame child f.scope dialect body)
      { session := s.session.openBlock f dialect } with
  | error e t =>
    rw [hcode] at hrun
    refine ⟨fun _ u hu => ?_, fun hs => ?_⟩
    · rw [run_bind, hrun] at hu
      cases hu
    · have hkept := hinner.keeps (K.openBlock dialect rfl h hs)
      rw [hcode] at hkept
      rw [run_bind, hrun]
      exact hkept
  | ok _ t =>
    rw [hcode] at hrun
    obtain ⟨hprimed, hadvances⟩ := hinner.done _ t hcode
    have hall := hopen.trans hadvances
    have hready := h.toReady.outer hprimed.tidy hall.grows hprimed.mode
    have hnext := h.next (h.widens hready hall.toWidens)
    obtain ⟨b, hb⟩ := Option.isSome_iff_exists.mp hprimed.stands.block?_isSome
    have hb' : t.session.block? child = some b := hb
    have hplace := Session.links?_openBlock h.stands.placed dialect child
    rw [if_pos rfl] at hplace
    obtain ⟨hkind, hparent⟩ := hadvances.places.of_block? hb' hplace
    have hcourse : Course True Instruction.IsPlain f { s with session := t.session }
        (emitBounce child (b.entry.getD 0) span) :=
      Composed.emitBounce _ _ _ f _ fun _ => hready
    have hrest : (do
        let child ← lowerInner dialect body
        let entry := (← getBlock child).entry.getD 0
        let _ ← emitBounce child entry span) f s =
        (do let _ ← emitBounce child (b.entry.getD 0) span) f { s with session := t.session } := by
      simp only [run_bind, hrun, run_getBlock, hb', child]
    refine ⟨fun _ u hu => ?_, fun hs => ?_⟩
    · rw [hrest] at hu
      obtain ⟨_, v, hv, hpure⟩ := bind_eq_ok.mp hu
      cases hpure
      obtain ⟨hu', hadvances'⟩ := hcourse.proceeds hnext.toPrimed hv
      exact ⟨hu', hall.trans hadvances'⟩
    · have hkept := hinner.keeps (K.openBlock dialect rfl h hs)
      rw [hcode] at hkept
      rw [hrest]
      have hbounce := K.bounce span rfl hnext hb' hkind hparent hkept
      rw [run_bind]
      revert hbounce
      cases emitBounce child (b.entry.getD 0) span f { s with session := t.session } with
      | ok => exact id
      | error => exact K.left

/-! ## Procedures -/

/-- The body of a procedure is lowered inside of the current block, in a frame of its own. -/
theorem lowerBody {fn : Function} {p : Procedure} (hentry : p.entry = none)
    (hbody : ∀ n ∈ fn.body, Keeping K (statement n)) (h : Nested false path f s) :
    Protects K path f s (lowerBody statement fn p) := by
  have hcourse := Composed.lowerBody (D := True) hentry (fun n (_ : n ∈ fn.body) => steady n) f s
    fun _ => h.toReady
  refine ⟨fun _ _ => hcourse.proceeds h.toPrimed, fun hs => ?_⟩
  let body := s.session.blocks.size
  let message := bodyMessage fn.name body
  have hinner : Keeping K (do
      declareParams p.args
      lowerCode fn.body) := by
    refine .bind (.silent (.forM fun _ _ => ?_)) fun _ => .lowerCode hbody
    exact .bind (.allocate _) fun _ => .pure _
  have hopen := Session.Advances.openProcedure h.stands.placed p message
  have hstart := h.widens (h.toReady.openProcedure p message fn.body) hopen.toWidens
  have hkept := hinner (body :: path) _ _ ⟨hstart, rfl⟩
  have hkeeps := hkept.keeps (K.openProcedure p message rfl h hs)
  have hdone := hkept.done
  rw [h.run_lowerBody fn p]
  revert hkeeps hdone
  generalize (declareParams p.args >>= fun _ => Lowering.lowerCode fn.body) _ _ = r
  rcases r with ⟨_, t⟩ | ⟨_, t⟩
  · intro ht hdone
    have hplace := Session.links?_openProcedure h.stands.placed p message body
    rw [if_pos rfl] at hplace
    simp only [run_bind, run_getBlock]
    cases hb : Session.block? _ s.session.blocks.size with
    | none => exact K.setLocals _ (K.left ht)
    | some b =>
      have hb' : t.session.block? body = some b := hb
      have hkind := ((hdone _ t rfl).2.places.of_block? hb' hplace).1
      refine K.finish _ _ _ _ rfl ?_ ht
      rw [Session.kind?, hb', Option.map_some, hkind]
  · exact fun ht _ => K.setLocals _ ht

theorem lowerFunction {fn : Function}
    (hbody : ∀ n ∈ fn.body, Keeping K (statement n)) (isGenerated : Bool) (h : Nested false path f s) :
    Protects K path f s (lowerFunction statement fn isGenerated) := by
  rw [lowerFunction_eq]
  refine .bind (.silent h (.resolveType _ _)) fun _ t _ ht _ => ?_
  refine .bind (.silent (h.next ht) (.resolveParams _)) fun _ u _ hu _ => ?_
  refine .bind (.silent (h.next hu) (.lowerAttributes _)) fun _ v _ hv _ => ?_
  exact .lowerBody rfl hbody (h.next hv)

/-! ## Classes -/

/-- The body of a class is lowered in the scope of the class. -/
theorem lowerClassBody {c : ClassDecl} (hc : (Node.classDecl c).CallsOnly K.source)
    (hbody : ∀ n : Node, n.weight < c.weight → n.CallsOnly K.source → Keeping K (statement n))
    (h : Nested false path f s) : Protects K path f s (lowerClassBody statement c) := by
  refine lowerClassBody_callsOnly (J := fun m => ∀ path f s, Nested false path f s → Protects K path f s m)
    (fun _ _ _ h => .pure h.toPrimed _) (fun hm hk path f s h => ?_) hc (fun _ _ _ h => ?_)
    (fun fn isGenerated hfn path f s h => ?_) path f s h
  · exact .bind (hm path f s h) fun _ t _ ht _ => hk path f t (h.next ht)
  · exact .silent h (.lowerMembers _)
  · exact .lowerFunction (fun n hn => hbody n (hfn n hn).1 (hfn n hn).2) isGenerated h

theorem lowerClass {c : ClassDecl} (hc : (Node.classDecl c).CallsOnly K.source)
    (hbody : ∀ n : Node, n.weight < c.weight → n.CallsOnly K.source → Keeping K (statement n))
    (hp : f.scope.procedure = none) (h : Nested false path f s) :
    Protects K path f s (lowerClass statement c) := by
  have hbase := Yields.resolveBase (D := True) (P := fun _ => False) c fun _ => h.toReady
  refine .bind (.quiet h hbase.course) fun base t hrun ht _ => ?_
  have hbound := hbase.result base t hrun trivial
  refine .bind (.silent (h.next ht) (.lowerAttributes _)) fun attributes v _ hv htv => .withSession ?_
  split
  · exact .silent (h.next hv) (.halt rfl _ _)
  · next classes happend =>
    have hadd : Course True Anything f v (modifySession fun u => { u with classes }) := by
      refine .addClass _ (fun _ => trivial) hp rfl rfl (fun _ b hb => ?_) happend
      exact Nat.lt_of_lt_of_le (hbound b hb) htv.size
    refine .bind (.ofCourse hv hadd (K.addClass rfl rfl happend)) fun _ x hx hx' _ => ?_
    cases hx
    refine .bind (.silent (h.next hx') (.note _ _ _)) fun _ y hy hy' _ => ?_
    cases hy
    have hcls : (classes.get? v.session.classes.size).isSome := ClassTable.isSome_get?_append? happend
    have hstart := hy'.widens (hy'.inClass hp hcls) (.refl _)
    have hkept := lowerClassBody hc hbody ⟨hstart, h.inside⟩
    refine ⟨fun a z hz => ?_, hkept.keeps⟩
    obtain ⟨hz', hadvances⟩ := hkept.done a z hz
    have hback : Ready false f z :=
      ⟨hz'.tidy, hy'.stands.grows hadvances.grows, hz'.neat, hz'.mode⟩
    exact ⟨hy'.widens hback hadvances.toWidens, hadvances⟩

end Protects

theorem Keeping.lowerTopLevelClass {c : ClassDecl}
    (hc : (Node.classDecl c).CallsOnly K.source)
    (hbody : ∀ n : Node, n.weight < c.weight → n.CallsOnly K.source → Keeping K (statement n)) :
    Keeping K (lowerTopLevelClass statement c) := by
  intro path f s h
  have hmay : Course True (fun _ => False) f s mayDeclareClass :=
    .withFrame (.bind (.getBlock fun _ => h.stands.block?_isSome) fun _ _ _ => .pure _)
  refine .bind (.quiet h hmay) fun may t hrun ht _ => ?_
  split
  · next htrue => exact .lowerClass hc hbody (mayDeclareClass_ok htrue hrun).1 (h.next ht)
  · exact .silent (h.next ht) (.halt rfl _ _)

/-! ## Control flow -/

namespace Keeping

section
variable {body otherwise : List Node} {condition : Node} {span : Span}

theorem emitJmp (target : Option Nat) (span : Span) : Keeping K (emitJmp target span) :=
  plain (.emitStepping (fun _ => rfl) _ _)

theorem emitCjmp (holds : Nat) (span : Span) :
    Keeping K (emitCjmp (.register .cx) holds span) :=
  bind (silent .getSession) fun _ => ite (plain (.emitSilent (fun _ => rfl) _))
    (plain (.emitStepping (fun _ => rfl) _ _))

theorem lowerIf (hbody : ∀ n ∈ body, Keeping K (statement n)) :
    Keeping K (lowerIf statement body span) := by
  refine bind (plain (.emitStepping (fun _ => rfl) _ _)) fun _ => bind (lowerAll hbody) fun _ => ?_
  exact bind (silent .pc) fun _ => bind (patch _ _) fun _ => pure _

theorem lowerIfElse (hbody : ∀ n ∈ body, Keeping K (statement n))
    (hother : ∀ n ∈ otherwise, Keeping K (statement n)) :
    Keeping K (lowerIfElse statement body otherwise span) := by
  refine bind (silent .pc) fun _ => bind (emitCjmp _ _) fun _ => bind (lowerAll hbody) fun _ => ?_
  refine bind (emitJmp _ _) fun _ => bind (silent .pc) fun _ => bind (patch _ _) fun _ => ?_
  refine bind (lowerAll hother) fun _ => bind (silent .pc) fun _ => ?_
  exact bind (patch _ _) fun _ => pure _

theorem lowerWhile (hc : condition.CallsOnly K.source) (hbody : ∀ n ∈ body, Keeping K (statement n)) :
    Keeping K (lowerWhile statement condition body span) := by
  refine bind (silent .pc) fun _ => bind (lowerCondition hc _) fun _ => bind (silent .pc) fun _ => ?_
  refine bind (emitCjmp _ _) fun _ => bind (withReader ?_ (lowerAll hbody)) fun _ => ?_
  · exact fun _ => rfl
  refine bind (patchAll _ _) fun _ => bind (emitJmp _ _) fun _ => bind (silent .pc) fun _ => ?_
  exact bind (patch _ _) fun _ => patchAll _ _

theorem lowerExit {keyword : String} {exits : Nat → Exits} :
    Keeping K (lowerExit keyword span exits) := by
  refine bind (silent .read) fun _ => onlyIf (silent (.halt rfl _ _)) ?_
  exact bind (emitJmp _ _) fun _ => pure _

end

/-- A statement that no jump leaves. -/
theorem closed {m : Lower Unit} (hm : Keeping K m) : Keeping K (Lowering.plain m) :=
  bind hm fun _ => pure _

/-! ## All statements -/

/-- Every statement whose calls are known keeps the property. The induction is on its weight. -/
theorem statement {n : Node} (hc : n.CallsOnly K.source) :
    Keeping K (Lowering.statement n) := by
  induction hk : n.weight using Nat.strongRecOn generalizing n with
  | ind k ih =>
    subst hk
    have hlight : ∀ m : Node, m.weight < n.weight → m.CallsOnly K.source →
        Keeping K (Lowering.statement m) := fun m hm hcm => ih _ hm hcm rfl
    have hlist {nodes : List Node} (hlt : Node.weights nodes < n.weight)
        (hparts : ∀ m ∈ nodes, m ∈ n.parts) : ∀ m ∈ nodes, Keeping K (Lowering.statement m) :=
      fun m hm => hlight m (Nat.lt_of_le_of_lt (Node.weight_le_weights hm) hlt) (hc.part (hparts m hm))
    have hfunction (fn : Function) (hfn : n = .function fn) :
        Keeping K (Lowering.plain (lowerFunction Lowering.statement fn false)) := by
      subst hfn
      refine closed fun path f s h => .lowerFunction (fun m hm => hlight m ?_ (hc.part hm)) false h
      have := weight_body_lt hm
      rw [Node.weight]
      omega
    have hblock {dialect : Dialect} {body : List Node} {span : Span}
        (hn : n = .block dialect body span) :
        Keeping K (Lowering.plain (lowerBlock Lowering.statement dialect body span)) := by
      subst hn
      have hlt : Node.weights body < (Node.block dialect body span).weight := by
        rw [Node.weight]
        omega
      exact closed fun path f s h => .lowerBlock (.lowerCode (hlist hlt fun _ hm => hm)) dialect span h
    rw [statement_eq]
    refine bind (silent .read) fun f => ?_
    cases f.dialect with
    | associative =>
      cases n with
      | assign target value span =>
        exact closed (lowerUpdate (hc.part (by simp [Node.parts])) (hc.part (by simp [Node.parts])) _)
      | ret value span => exact closed (lowerReturn (fun _ hv => hc.part hv) _)
      | varDecl v => exact closed (lowerVariable fun _ hv => hc.part hv)
      | function fn => exact hfunction fn rfl
      | classDecl c =>
        refine closed (lowerTopLevelClass hc fun m hm => hlight m ?_)
        rw [Node.weight]
        omega
      | block dialect body span => exact hblock rfl
      | branch | loop | breakLoop | continueLoop => exact closed (silent (.halt rfl _ _))
      | _ => exact closed (lowerUnnamed hc)
    | imperative =>
      cases n with
      | assign target value span =>
        exact closed (lowerAssignment (hc.part (by simp [Node.parts])) (hc.part (by simp [Node.parts])))
      | ret value span => exact closed (returnStatement (fun _ hv => hc.part hv) _)
      | branch condition body otherwise span =>
        simp only [Node.weight] at hlist
        refine bind (lowerCondition (hc.part (List.mem_cons_self ..)) _) fun _ => ite ?_ ?_
        · exact lowerIf (hlist (by omega) fun m hm => by simp [Node.parts, hm])
        · exact lowerIfElse (hlist (by omega) fun m hm => by simp [Node.parts, hm])
            (hlist (by omega) fun m hm => by simp [Node.parts, hm])
      | loop condition body span =>
        simp only [Node.weight] at hlist
        refine closed (lowerWhile (hc.part (List.mem_cons_self ..)) (hlist (by omega) fun m hm => ?_))
        exact List.mem_cons_of_mem condition hm
      | breakLoop span => exact lowerExit
      | continueLoop span => exact lowerExit
      | varDecl v => exact closed (lowerVariable fun _ hv => hc.part hv)
      | block dialect body span => exact hblock rfl
      | function fn => exact hfunction fn rfl
      | classDecl c => exact silent (.halt rfl _ _)
      | _ => exact closed (lowerDiscarded hc)

/-- The value of a watch expression goes to a symbol of its own. -/
theorem lowerWatch {w : Bool} {K : Keeper w} {node : Node} (hc : node.CallsOnly K.source) :
    Keeping K (lowerWatch node) := by
  refine bind (silent .pc) fun entry => bind (expression hc) fun _ => ?_
  refine bind (silent (.nextTemporary _)) fun name => bind (silent (.allocate _)) fun r => ?_
  refine fun path f s h => .withSymbol fun x => bind (plain (.emitSilent (fun _ => rfl) _)) ?_ path f s h
  exact fun _ => bind (plain (.emit (fun _ => rfl) _)) fun _ => pure _

end Keeping

end Diglot.Lowering
