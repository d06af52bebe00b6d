import Diglot.Proofs.Closed.Statement

/-! # Courses of statements

Every statement has a course wherever it starts in order (`steady`). A jump that is patched is a hole of
the code that has been laid out since the statement began (`Underway`), so that patching it is no
defect.
-/

set_option autoImplicit false

namespace Diglot.Lowering

variable {D : Prop} {P : Instruction → Prop} {α β : Type} {f : Frame} {s : State} {u : Session}
  {holes : List Nat}

/-- Any instruction may be emitted. -/
abbrev Anything : Instruction → Prop := fun _ => True

/-- A statement is under way: the run is in order, and the code that was laid out since `u` has the
holes. -/
structure Underway (f : Frame) (u : Session) (holes : List Nat) (s : State) : Prop where
  ready : Ready false f s
  origin : Seated f u
  laid : Laid f.block f.leave u s.session holes

namespace Underway

theorem start (hr : Ready false f s) (hs : Seated f s.session) : Underway f s.session [] s :=
  ⟨hr, hs, .ofAside (.ofSilent (.refl _)) hs.inside⟩

theorem seated (h : Underway f u holes s) : Seated f s.session := h.origin.laid h.laid

theorem perm {holes' : List Nat} (h : Underway f u holes s) (hp : holes.Perm holes') :
    Underway f u holes' s := ⟨h.ready, h.origin, h.laid.perm hp⟩

theorem size_le (h : Underway f u holes s) :
    (u.stream f.block).size ≤ (s.session.stream f.block).size := by
  obtain ⟨k, old, new, hold, hnew, hdraft⟩ := h.laid.draft
  rw [Session.stream_of_text h.origin.notWatching hold,
    Session.stream_of_text h.seated.notWatching hnew]
  exact hdraft.keeps.size_le

/-- A hole can be filled. -/
theorem canPatch (h : Underway f u holes s) {p : Nat} (hp : p ∈ holes) (target : Nat) :
    ∃ i j, (s.session.stream f.block)[p]? = some i ∧ i.patch target = .ok j := by
  obtain ⟨k, old, new, _, hnew, hdraft⟩ := h.laid.draft
  obtain ⟨_, i, hi, hwaits⟩ := hdraft.waits p hp
  obtain ⟨j, hj, _⟩ := hwaits (max (new.size + 1) (target + 1)) target (by omega) (by omega)
  rw [Session.stream_of_text h.seated.notWatching hnew]
  exact ⟨i, j, hi, hj⟩

theorem patch {p target : Nat} {t : State} (h : Underway f u (p :: holes) s)
    (ht : Ready false f t) (htarget : target ≤ (s.session.stream f.block).size)
    (hrun : patch p target f s = .ok () t) :
    Underway f u holes t ∧
      (t.session.stream f.block).size = (s.session.stream f.block).size := by
  obtain ⟨hlaid, hsize⟩ := patch_laid h.laid h.seated.notWatching htarget hrun
  exact ⟨⟨ht, h.origin, hlaid⟩, hsize⟩

end Underway

/-! ## Parts of a statement -/

namespace Course

/-- A part that lays out code adds its holes. -/
theorem lay {m : Lower α} {k : α → Lower β} {e : α → List Nat} (h : D → Underway f u holes s)
    (hm : Course D P f s m)
    (hlaid : D → ∀ a t, m f s = .ok a t → Laid f.block f.leave s.session t.session (e a))
    (hk : ∀ a t, (D → Underway f u (holes ++ e a) t) → Course D P f t (k a)) :
    Course D P f s (m >>= k) := by
  refine .bind hm fun a t hrun => hk a t fun hD => ?_
  exact ⟨hm.ready (fun hD => (h hD).ready) hrun hD, (h hD).origin,
    (h hD).laid.trans (hlaid hD a t hrun)⟩

/-- A part that emits plain code. -/
theorem layPlain {m : Lower α} {k : α → Lower β} (h : D → Underway f u holes s)
    (hm : ∀ E, Composed false E Instruction.IsPlain m)
    (hk : ∀ a t, (D → Underway f u holes t) → Course D Anything f t (k a)) :
    Course D Anything f s (m >>= k) := by
  have hcourse := (hm D f s fun hD => (h hD).ready).mono (Q := Anything) fun _ _ => trivial
  refine .lay (e := fun _ => []) h hcourse (fun hD a t hrun => ?_) fun a t ht => hk a t fun hD => ?_
  · exact laid_of_plain (hm False) (h hD).seated hrun
  · have := ht hD
    rwa [List.append_nil] at this

/-- The place behind the code so far. -/
theorem place {k : Nat → Lower β} (h : D → Underway f u holes s)
    (hk : ∀ p, (D → p = (s.session.stream f.block).size) → Course D P f s (k p)) :
    Course D P f s (pc >>= k) := by
  refine .bind (Composed.pc f s fun hD => (h hD).ready) fun p t hrun => ?_
  have hsame : t = s := by
    simp only [pc, run_bind, run_getSession, run_ite, run_read, run_getBlock] at hrun
    split at hrun
    · cases hrun
      rfl
    · split at hrun
      · next hb =>
        split at hb
        · cases hb
          cases hrun
          rfl
        · cases hb
      · cases hrun
  subst hsame
  exact hk p fun hD => (pc_seated (h hD).seated hrun).1

theorem fill {p target : Nat} {k : Unit → Lower β} (h : D → Underway f u (p :: holes) s)
    (htarget : D → target ≤ (s.session.stream f.block).size)
    (hk : ∀ t, (D → Underway f u holes t) →
      (D → (t.session.stream f.block).size = (s.session.stream f.block).size) →
      Course D Anything f t (k ())) :
    Course D Anything f s (Lowering.patch p target >>= k) := by
  have hpatch : Course D Anything f s (Lowering.patch p target) :=
    .patch (fun _ => trivial) fun hD => (h hD).canPatch (List.mem_cons_self ..) target
  refine .bind hpatch fun _ t hrun => ?_
  have hfilled := fun hD =>
    (h hD).patch (hpatch.ready (fun hD => (h hD).ready) hrun hD) (htarget hD) hrun
  exact hk t (fun hD => (hfilled hD).1) fun hD => (hfilled hD).2

theorem fillAll {pending : List Nat} {target : Nat} {k : Unit → Lower β}
    (h : D → Underway f u (pending ++ holes) s)
    (htarget : D → target ≤ (s.session.stream f.block).size)
    (hk : ∀ t, (D → Underway f u holes t) →
      (D → (t.session.stream f.block).size = (s.session.stream f.block).size) →
      Course D Anything f t (k ())) :
    Course D Anything f s (patchAll pending target >>= k) := by
  induction pending generalizing s with
  | nil => exact .bind (.pure ()) fun _ _ hrun => by cases hrun; exact hk s h fun _ => rfl
  | cons p rest ih =>
    have hrest : (patchAll (p :: rest) target >>= k) =
        Lowering.patch p target >>= fun _ => patchAll rest target >>= k := bind_assoc _ _ _
    rw [hrest]
    refine .fill h htarget fun t ht hsize => ih ht (fun hD => ?_) fun v hv hsize' => hk v hv fun hD => ?_
    · rw [hsize hD]
      exact htarget hD
    · exact (hsize' hD).trans (hsize hD)

end Course

/-! ## Statements and lists -/

/-- The statement has a course wherever it starts in order. -/
def Steady (D : Prop) (n : Node) : Prop :=
  ∀ f s, (D → Ready false f s) → (D → Seated f s.session) → Course D Anything f s (statement n)

theorem Course.all {nodes : List Node} (h : ∀ n ∈ nodes, Steady D n)
    (hr : D → Ready false f s) (hs : D → Seated f s.session) :
    Course D Anything f s (lowerAll statement nodes) := by
  induction nodes generalizing s with
  | nil => exact .pure _
  | cons n rest ih =>
    have hn := h n (List.mem_cons_self ..) f s hr hs
    refine hn.andThen hr fun x t hrun ht => ?_
    refine .bind (ih (fun m hm => h m (List.mem_cons_of_mem n hm)) ht fun hD => ?_) fun _ _ _ => .pure _
    exact (hs hD).laid (laysOut n f s t x (hs hD) hrun).1

/-- A list of statements is a part of a statement whose holes are the jumps that leave it. -/
theorem Course.layAll {nodes : List Node} {k : Exits → Lower β} (h : D → Underway f u holes s)
    (hnodes : ∀ n ∈ nodes, Steady D n)
    (hk : ∀ x t, (D → Underway f u (holes ++ Exits.holes x) t) → Course D Anything f t (k x)) :
    Course D Anything f s (lowerAll statement nodes >>= k) := by
  refine .lay h (.all hnodes (fun hD => (h hD).ready) fun hD => (h hD).seated) (fun hD x t hrun => ?_) hk
  exact (laidOut_all (fun n _ => laysOut n) (h hD).seated hrun).1

namespace Composed

variable {w : Bool}

theorem any {m : Lower α} (h : Composed w D Instruction.IsPlain m) : Composed w D Anything m :=
  h.mono fun _ _ => trivial

/-! ## Returning -/

theorem emitLeave : Composed w D Anything emitLeave :=
  bind read fun _ => emit (fun _ => trivial) _

theorem returnStatement (value : Option Node) (span : Span) :
    Composed w D Anything (returnStatement value span) := by
  rw [returnStatement_eq]
  exact bind (any (lowerResult value span)) fun _ => bind emitLeave fun _ => pure _

theorem lowerReturn (value : Option Node) (span : Span) :
    Composed w D Anything (lowerReturn value span) := by
  intro f s hr
  refine .withResult hr (.freshNode false hr) fun fresh t ht hfresh => ?_
  refine .withResult ht (.tracking ht hfresh (returnStatement value span)) fun p u hu hopen => ?_
  refine .keeping (fun _ _ => IsOpen.grows) hu hopen (classScope f u hu) fun cls v hv hopen => ?_
  exact .commit hv hopen

theorem closeUnit (unit : List Node) : Composed w D Anything (closeUnit unit) := by
  have hresult : Composed w D Anything (emitResult .nil) :=
    bind classScope fun _ => bind (any (emitPop rfl _ _)) fun _ => emitLeave
  refine bind read fun f => ite (bind emitLeave fun _ => pure _) (ite (pure _) ?_)
  refine bind currentProcedure? fun p => ite ?_ ?_
  · exact bind (any (emitPush rfl _ _)) fun _ => bind hresult fun _ => pure _
  · exact bind (any (emitPush rfl _ _)) fun _ => bind hresult fun _ => pure _

end Composed

/-! ## Units -/

theorem Course.lowerCode {unit : List Node} (h : ∀ n ∈ unit, Steady D n) (hr : D → Ready false f s)
    (hs : D → Seated f s.session) : Course D Anything f s (lowerCode unit) :=
  (Course.all h hr hs).andThen hr fun _ t _ ht => Composed.closeUnit unit f t ht

theorem Yields.lowerInner {body : List Node} (h : ∀ n ∈ body, Steady D n) (dialect : Dialect)
    (hr : D → Ready false f s) (hs : D → Seated f s.session) :
    Yields D Anything (fun id t => (t.block? id).isSome) f s (lowerInner dialect body) := by
  have hcode : Course D Anything (unitFrame s.session.blocks.size f.scope dialect body)
      { session := s.session.openBlock f dialect } (Lowering.lowerCode body) :=
    .lowerCode h (fun hD => (hr hD).openBlock dialect body) fun hD => seated_openBlock (hs hD) dialect body
  refine ⟨.block dialect body (fun _ => trivial) fun _ => hcode, fun id t hrun hD => ?_⟩
  rw [lowerInner_run dialect body (hr hD).stands.block?_isSome] at hrun
  have hsafe := hcode.safe hD ((hr hD).openBlock dialect body)
  revert hrun hsafe
  rcases Lowering.lowerCode body _ _ with ⟨_, v⟩ | ⟨_, v⟩
  · intro hrun hsafe
    cases hrun
    exact hsafe.1.stands.block?_isSome
  · intro hrun
    cases hrun

theorem Course.lowerBlock {body : List Node} (h : ∀ n ∈ body, Steady D n) (dialect : Dialect)
    (span : Span) (hr : D → Ready false f s) (hs : D → Seated f s.session) :
    Course D Anything f s (lowerBlock statement dialect body span) := by
  rw [lowerBlock_eq]
  refine .withResult hr (.lowerInner h dialect hr hs) fun child t ht hchild => ?_
  refine (Course.getBlock hchild).andThen ht fun b v _ hv => ?_
  exact Composed.bind (.any (.emitBounce _ _ _)) (fun _ => .pure _) f v hv

theorem Composed.lowerBody {fn : Function} {p : Procedure} (hentry : p.entry = none)
    (h : ∀ n ∈ fn.body, Steady D n) : Composed false D Anything (lowerBody statement fn p) := by
  intro f s hr
  refine .procedure fn p (fun _ => trivial) hentry fun hblock hcls t hrun => .lowerCode h ?_ ?_
  · intro hD
    have hstart := (hr hD).openProcedure p (bodyMessage fn.name s.session.blocks.size) fn.body
    have hsafe := safe_declareParams hstart p.args
    rw [hrun] at hsafe
    exact hsafe.1
  · -- Declaring the parameters writes no code.
    intro hD
    have hseat := seated_openProcedure hblock hcls (hr hD).mode p
      (bodyMessage fn.name s.session.blocks.size) fn.body
    have hparams : Composed false False (fun _ => False) (declareParams p.args) :=
      .forM fun _ _ => .bind (.allocate _) fun _ => .pure _
    have hlaid : Laid _ .ret _ _ [] := .ofAside (aside_of_composed hparams hrun) hseat.inside
    exact hseat.laid hlaid

theorem Composed.lowerFunction {fn : Function} (h : ∀ n ∈ fn.body, Steady D n) (isGenerated : Bool) :
    Composed false D Anything (lowerFunction statement fn isGenerated) := by
  rw [lowerFunction_eq]
  refine bind (resolveType _ _) fun _ => bind (resolveParams _) fun _ => ?_
  exact bind (lowerAttributes _) fun _ => lowerBody rfl h

/-! ## Classes -/

theorem Course.lowerClass {c : ClassDecl} (h : ∀ n : Node, n.weight < c.weight → Steady D n)
    (hp : f.scope.procedure = none) (hr : D → Ready false f s) :
    Course D Anything f s (lowerClass statement c) := by
  have hbody : Composed false D Anything (lowerClassBody statement c) := by
    refine lowerClassBody_rule (J := Composed false D Anything) (.pure _)
      (fun hm hk => .bind hm fun _ => hk) c (.lowerMembers _) fun fn isGenerated hfn => ?_
    exact .lowerFunction (fun n hn => h n (hfn n hn)) isGenerated
  have hkeep (base : Option Nat) : ∀ s t : Session, s.Grows t →
      (∀ b, base = some b → b < s.classes.size) → ∀ b, base = some b → b < t.classes.size := by
    intro s t hst hbase b hb
    have hiff (classes : ClassTable) : (classes.get? b).isSome ↔ b < classes.size := by
      simp [ClassTable.get?, ClassTable.size]
    exact (hiff _).mp (hst.classes b ((hiff _).mpr (hbase b hb)))
  refine .withResult hr (.resolveBase c hr) fun base t ht hbase => ?_
  refine .keeping (hkeep base) ht hbase (Composed.lowerAttributes _ f t ht) fun attributes v hv hbase => ?_
  refine .withSession ?_
  split
  · exact .halt _ _ rfl
  · next classes happend =>
    have hadd : Course D Anything f v (modifySession fun u => { u with classes }) :=
      .addClass _ (fun _ => trivial) hp rfl rfl hbase happend
    refine hadd.andThen hv fun _ x hx hready => ?_
    cases hx
    refine (Course.note ..).andThen hready fun _ y hy hready' => ?_
    cases hy
    have hcls : (classes.get? v.session.classes.size).isSome := ClassTable.isSome_get?_append? happend
    exact .inClass _ (fun _ => trivial) hp hcls (hbody _ _ fun hD => (hready' hD).inClass hp hcls)

/-- Where a class may be declared: outside of procedures and classes. -/
theorem mayDeclareClass_ok {t : State} {may : Bool} (hmay : may = true) (hrun : mayDeclareClass f s = .ok may t) :
    f.scope.procedure = none ∧ f.scope.classScope = none := by
  obtain ⟨g, u, hg, hrun⟩ := bind_eq_ok.mp hrun
  cases hg
  obtain ⟨b, u, -, hrun⟩ := bind_eq_ok.mp hrun
  cases hrun
  simp only [Bool.and_eq_true, Option.isNone_iff_eq_none] at hmay
  exact ⟨hmay.1.2, hmay.2⟩

theorem Course.lowerTopLevelClass {c : ClassDecl} (h : ∀ n : Node, n.weight < c.weight → Steady D n)
    (hr : D → Ready false f s) : Course D Anything f s (lowerTopLevelClass statement c) := by
  have hmay : Course D Anything f s mayDeclareClass :=
    .withFrame (.bind (.getBlock fun hD => (hr hD).stands.block?_isSome) fun _ _ _ => .pure _)
  refine hmay.andThen hr fun may t hrun ht => ?_
  split
  · next htrue => exact .lowerClass h (mayDeclareClass_ok htrue hrun).1 ht
  · exact .halt _ _ rfl

/-! ## Jumps -/

namespace Course

section
variable {body otherwise : List Node} {condition : Node} {span : Span}

theorem emitJmp {target : Option Nat} (hr : D → Ready false f s) :
    Course D Anything f s (emitJmp target span) :=
  Composed.emitStepping (fun _ => trivial) _ _ f s hr

/-- A branch whose first target is behind it. -/
theorem layCjmp {p : Nat} {k : Nat → Lower β} (h : D → Underway f u holes s)
    (hp : D → p = (s.session.stream f.block).size)
    (hk : ∀ branch t, (D → Underway f u (holes ++ [branch]) t) → Course D Anything f t (k branch)) :
    Course D Anything f s (emitCjmp (.register .cx) (p + 1) span >>= k) := by
  have hbranch : Composed false D Anything (emitCjmp (.register .cx) (p + 1) span) := by
    refine .bind .getSession fun _ => .ite ?_ ?_
    · exact .emitSilent (fun _ => trivial) _
    · exact .emitStepping (fun _ => trivial) _ _
  refine .lay (e := fun p => [p]) h (hbranch f s fun hD => (h hD).ready) (fun hD q t hrun => ?_) hk
  rw [hp hD] at hrun
  exact emitCjmp_laid (h hD).seated hrun

theorem lowerIf (hbody : ∀ n ∈ body, Steady D n) (h : D → Underway f u [] s) :
    Course D Anything f s (lowerIf statement body span) := by
  have hbranch : Course D Anything f s (emitJz (.register .cx) span) :=
    Composed.emitStepping (fun _ => trivial) _ _ f s fun hD => (h hD).ready
  refine .lay (e := fun p => [p]) h hbranch (fun hD p t hrun => ?_) fun branch t ht => ?_
  · exact emitJz_laid (h hD).seated hrun
  refine .layAll ht hbody fun x v hv => ?_
  refine .place hv fun p hp => ?_
  exact .fill hv (fun hD => Nat.le_of_eq (hp hD)) fun _ _ _ => .pure _

theorem lowerIfElse (hbody : ∀ n ∈ body, Steady D n) (hother : ∀ n ∈ otherwise, Steady D n)
    (h : D → Underway f u [] s) :
    Course D Anything f s (lowerIfElse statement body otherwise span) := by
  refine .place h fun p hp => ?_
  refine .layCjmp h hp fun branch t ht => ?_
  refine .layAll ht hbody fun x v hv => ?_
  refine .lay (e := fun p => [p]) hv (emitJmp fun hD => (hv hD).ready) (fun hD p y hrun => ?_)
    fun skip y hy => ?_
  · exact emitHole_laid (hv hD).seated hrun
  refine .place hy fun p hp => ?_
  refine .fill hy (fun hD => Nat.le_of_eq (hp hD)) fun z hz _ => ?_
  refine .layAll hz hother fun x' a ha => ?_
  have hperm : ((x.holes ++ [skip]) ++ x'.holes).Perm (skip :: (x.holes ++ x'.holes)) := by
    rw [List.append_assoc]
    exact List.perm_middle
  refine .place ha fun p hp => ?_
  exact .fill (fun hD => (ha hD).perm hperm) (fun hD => Nat.le_of_eq (hp hD)) fun _ _ _ => .pure _

theorem lowerWhile (hbody : ∀ n ∈ body, Steady D n) (h : D → Underway f s.session [] s) :
    Course D Anything f s (lowerWhile statement condition body span) := by
  refine .place h fun start hstart => ?_
  refine .layPlain h (fun _ => .lowerCondition condition span) fun _ t ht => ?_
  refine .place ht fun p hp => ?_
  refine .layCjmp ht hp fun branch v hv => ?_
  have hinner : Course D Anything f v
      (MonadWithReader.withReader (fun f : Frame => { f with inLoop := true })
        (lowerAll statement body)) :=
    .withReader rfl (.all hbody (fun hD => (hv hD).ready.site rfl) fun hD => (hv hD).seated.site rfl)
  refine .lay (e := Exits.holes) hv hinner (fun hD x y hrun => ?_) fun x y hy => ?_
  · exact (laidOut_all (f := { f with inLoop := true }) (fun n _ => laysOut n)
      ((hv hD).seated.site rfl) hrun).1
  have hperm : (([] ++ [branch]) ++ x.holes).Perm (x.continues ++ (branch :: x.breaks)) := by
    rw [List.nil_append, List.singleton_append]
    refine (List.Perm.cons _ List.perm_append_comm).trans ?_
    exact List.perm_middle.symm
  have hback {holes : List Nat} {z : State} (hz : D → Underway f s.session holes z) :
      D → start ≤ (z.session.stream f.block).size := fun hD => hstart hD ▸ (hz hD).size_le
  refine .fillAll (fun hD => (hy hD).perm hperm) (hback hy) fun z hz _ => ?_
  refine .lay (e := fun _ => []) hz (emitJmp fun hD => (hz hD).ready) (fun hD p a hrun => ?_)
    fun _ a ha => ?_
  · exact emitJmp_laid (hz hD).seated (hback hz hD) hrun
  refine .place ha fun exit hexit => ?_
  refine .fill ha (fun hD => Nat.le_of_eq (hexit hD)) fun b hb hsize => ?_
  have htarget : D → exit ≤ (b.session.stream f.block).size :=
    fun hD => Nat.le_of_eq ((hexit hD).trans (hsize hD).symm)
  have hlast := Course.fillAll (k := Pure.pure) hb htarget fun _ _ _ => .pure _
  rwa [bind_pure] at hlast

end

theorem lowerExit {keyword : String} {span : Span} {exits : Nat → Exits} (hr : D → Ready false f s) :
    Course D Anything f s (lowerExit keyword span exits) := by
  have hjump : Composed false D Anything (do return exits (← Lowering.emitJmp none span)) :=
    .bind (fun _ _ hr => emitJmp hr) fun _ => .pure _
  exact Composed.bind .read (fun _ => .onlyIf (.halt rfl _ _) hjump) f s hr

end Course

/-! ## All statements -/

/-- Every statement has a course. The induction is on the weight of the statement. -/
theorem steady (n : Node) : Steady D n := by
  induction hk : n.weight using Nat.strongRecOn generalizing n with
  | ind k ih =>
    subst hk
    have hlight : ∀ m : Node, m.weight < n.weight → Steady D m := fun m hm => ih _ hm m rfl
    have hlist {nodes : List Node} (hlt : Node.weights nodes < n.weight) :
        ∀ m ∈ nodes, Steady D m :=
      fun m hm => hlight m (Nat.lt_of_le_of_lt (Node.weight_le_weights hm) hlt)
    intro f s hr hs
    have hstart : D → Underway f s.session [] s := fun hD => .start (hr hD) (hs hD)
    have hplain {m : Lower Unit} (hm : Course D Anything f s m) : Course D Anything f s (plain m) :=
      .bind hm fun _ _ _ => .pure _
    have hany {m : Lower Unit} (hm : Composed false D Instruction.IsPlain m) :
        Course D Anything f s (plain m) := hplain (hm.any f s hr)
    have hfunction (fn : Function) (hfn : n = .function fn) :
        Course D Anything f s (plain (lowerFunction statement fn false)) := by
      refine hplain (Composed.lowerFunction (fun m hm => hlight m ?_) false f s hr)
      have := weight_body_lt hm
      rw [hfn, Node.weight]
      omega
    have hblock {dialect : Dialect} {body : List Node} {span : Span}
        (hn : n = .block dialect body span) :
        Course D Anything f s (plain (lowerBlock statement dialect body span)) := by
      refine hplain (.lowerBlock (hlist ?_) dialect span hr hs)
      rw [hn, Node.weight]
      omega
    rw [statement_eq]
    refine .withFrame ?_
    cases f.dialect with
    | associative =>
      cases n with
      | assign target value span => exact hany (.lowerUpdate _ _ _)
      | ret value span => exact hplain (Composed.lowerReturn _ _ f s hr)
      | varDecl v => exact hany (.lowerVariable v)
      | function fn => exact hfunction fn rfl
      | classDecl c =>
        refine hplain (.lowerTopLevelClass (fun m hm => hlight m ?_) hr)
        rw [Node.weight]
        omega
      | block dialect body span => exact hblock rfl
      | branch | loop | breakLoop | continueLoop => exact hplain (.halt _ _ rfl)
      | _ => exact hany (.lowerUnnamed _)
    | imperative =>
      cases n with
      | assign target value span => exact hany (.lowerAssignment _ _)
      | ret value span => exact hplain (Composed.returnStatement _ _ f s hr)
      | branch condition body otherwise span =>
        simp only [Node.weight] at hlist
        refine .layPlain hstart (fun _ => .lowerCondition condition span) fun _ t ht => ?_
        split
        · exact .lowerIf (hlist (by omega)) ht
        · exact .lowerIfElse (hlist (by omega)) (hlist (by omega)) ht
      | loop condition body span =>
        simp only [Node.weight] at hlist
        exact hplain (.lowerWhile (hlist (by omega)) hstart)
      | breakLoop span => exact .lowerExit hr
      | continueLoop span => exact .lowerExit hr
      | varDecl v => exact hany (.lowerVariable v)
      | block dialect body span => exact hblock rfl
      | function fn => exact hfunction fn rfl
      | classDecl c => exact .halt _ _ rfl
      | _ => exact hany (.lowerDiscarded _)

end Diglot.Lowering
