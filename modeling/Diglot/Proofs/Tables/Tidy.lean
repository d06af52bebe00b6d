import Diglot.Proofs.Tables.Growth
import Diglot.Proofs.Tables.Locals

/-! # Tidy sessions

What has to hold of the tables for every walk along them to end, and for every reference that a lookup
returns to point to something.

* `Session.Tidy`: the tables are coherent, blocks come behind the blocks around them and classes
  behind their base classes, and every procedure knows its position.
* `Frame.Stands`: the frame is in its place, and so is the class whose body is being lowered.
* `Session.Tidy.enclosing?` and `Session.Tidy.callTarget` are what the lookups rely on.
-/

set_option autoImplicit false

namespace Diglot

open Lowering

namespace ProcedureTable

/-- Every procedure knows its position. -/
def Numbered (t : ProcedureTable) : Prop := ∀ i p, t.get? i = some p → p.index = i

theorem numbered_empty : ({} : ProcedureTable).Numbered := by
  intro i p h
  cases h

theorem Numbered.append {t : ProcedureTable} (h : t.Numbered) (p : Procedure) :
    (t.append p).Numbered := by
  intro i q hq
  unfold get? ProcedureTable.append at hq
  rw [Array.getElem?_push] at hq
  split at hq
  · next hi =>
    cases hq
    exact hi.symm
  · exact h i q hq

theorem Numbered.modify {t : ProcedureTable} (h : t.Numbered) (i : Nat)
    {g : Procedure → Procedure} (hg : ∀ p, (g p).index = p.index) : (t.modify i g).Numbered := by
  intro j q hq
  rw [get?_modify] at hq
  split at hq
  · obtain ⟨p, hp, rfl⟩ := Option.map_eq_some_iff.mp hq
    rw [hg, h j p hp]
  · exact h j q hq

/-- The index of a procedure in a table is a position of the table. -/
theorem Numbered.get?_index {t : ProcedureTable} (h : t.Numbered) {p : Procedure}
    (hp : p ∈ t.toList) : t.get? p.index = some p := by
  obtain ⟨i, hi⟩ := List.mem_iff_getElem?.mp hp
  have hget : t.get? i = some p := by
    rw [get?, ← Array.getElem?_toList]
    exact hi
  rw [h i p hget, hget]

theorem Numbered.find? {t : ProcedureTable} (h : t.Numbered) {name : String} {arity i : Nat}
    (hi : t.find? name arity = some i) : (t.get? i).isSome := by
  have hmem : ∃ p ∈ t.toList, p.index = i := by
    unfold ProcedureTable.find? at hi
    dsimp only at hi
    split at hi
    · next p hp =>
      cases hi
      exact ⟨p, (List.mem_filter.mp (List.mem_of_find?_eq_some hp)).1, rfl⟩
    · obtain ⟨p, hp, hi⟩ := Option.map_eq_some_iff.mp hi
      exact ⟨p, (List.mem_filter.mp (List.mem_of_mem_head? hp)).1, hi⟩
  obtain ⟨p, hp, rfl⟩ := hmem
  rw [h.get?_index hp]
  rfl

theorem Numbered.anyConstructor? {t : ProcedureTable} (h : t.Numbered) {arity i : Nat}
    (hi : t.anyConstructor? arity = some i) : (t.get? i).isSome := by
  obtain ⟨p, hp, rfl⟩ := Option.map_eq_some_iff.mp hi
  rw [h.get?_index (List.mem_of_find?_eq_some hp)]
  rfl

end ProcedureTable

/-- The class comes behind its base class, and its procedures know their positions. -/
structure Class.Ordered (c : Class) (cls : Nat) : Prop where
  procedures : c.procedures.Numbered
  base : ∀ b, c.base = some b → b < cls

/-- The tables of the session are in order, and no walk along them runs in a circle. -/
structure Session.Tidy (s : Session) : Prop where
  coherent : s.Coherent
  parents : ∀ id h p, s.header? id = some h → h.parent = some p → p < id
  procedures : s.procedures.Numbered
  classes : ∀ cls c, s.classes.get? cls = some c → c.Ordered cls

/-- The frame stands in a block of its procedure or, outside of procedures, in a class that exists. -/
structure Lowering.Frame.Stands (f : Frame) (s : Session) : Prop where
  placed : f.Placed s
  owner : f.scope.procedure = none → ∀ cls, f.scope.classScope = some cls →
    (s.classes.get? cls).isSome

theorem Lowering.Frame.Stands.grows {f : Frame} {s t : Session} (h : f.Stands s)
    (hst : s.Grows t) : f.Stands t :=
  ⟨h.placed.keeps hst.keeps, fun hp cls hc => hst.classes cls (h.owner hp cls hc)⟩

theorem Lowering.Frame.Stands.inside {f : Frame} {s : Session} (h : f.Stands s) :
    f.block < s.blocks.size := by
  obtain ⟨hd, hs, _⟩ := h.placed.block
  exact Session.lt_of_header? hs

theorem Lowering.Frame.Stands.block?_isSome {f : Frame} {s : Session} (h : f.Stands s) :
    (s.block? f.block).isSome := by
  obtain ⟨hd, hs, _⟩ := h.placed.block
  rw [← Session.header?_isSome, hs]
  rfl

/-- A procedure that is declared in the frame has a class to be registered in. -/
theorem Lowering.Frame.Stands.ownerClass {f : Frame} {s : Session} (h : f.Stands s) {cls : Nat}
    (hcls : Session.ownerClass f.scope = some cls) : (s.classes.get? cls).isSome := by
  unfold Session.ownerClass at hcls
  split at hcls
  · next hp => exact h.owner (Option.isNone_iff_eq_none.mp hp) cls hcls
  · cases hcls

namespace Session

/-! ## Changes keep a session tidy -/

theorem Tidy.congr {s t : Session} (h : s.Tidy) (hc : t.classes = s.classes)
    (hp : t.procedures = s.procedures) (hh : t.header? = s.header?) : t.Tidy := by
  refine ⟨h.coherent.congr hc hp hh, ?_, ?_, ?_⟩
  · rw [hh]
    exact h.parents
  · rw [hp]
    exact h.procedures
  · rw [hc]
    exact h.classes

/-- Entering a symbol changes no parent. -/
theorem parents_enterLocal {s : Session}
    (h : ∀ id h p, s.header? id = some h → h.parent = some p → p < id) (id : Nat) (x : Symbol) :
    ∀ other h p, (s.enterLocal id x).header? other = some h → h.parent = some p → p < other := by
  intro other hd p hs hp
  unfold Session.enterLocal at hs
  rw [header?_modifyBlock_eq (k := fun h => { h with symbols := h.symbols.append x })
    (fun _ => rfl)] at hs
  split at hs
  · obtain ⟨hd', hs', rfl⟩ := Option.map_eq_some_iff.mp hs
    exact h other hd' p hs' hp
  · exact h other hd p hs hp

/-- Changing a class but for its base class and its procedures leaves the classes ordered. -/
theorem ordered_modify {t : ClassTable} (h : ∀ cls c, t.get? cls = some c → c.Ordered cls)
    (cls : Nat) {g : Class → Class} (hg : ∀ c, c.Ordered cls → (g c).Ordered cls) :
    ∀ other c, (t.modify cls g).get? other = some c → c.Ordered other := by
  intro other c hc
  rw [ClassTable.get?_modify] at hc
  split at hc
  · next heq =>
    subst heq
    obtain ⟨k, hk, rfl⟩ := Option.map_eq_some_iff.mp hc
    exact hg k (h cls k hk)
  · exact h other c hc

theorem ordered_appendSymbol {t : ClassTable}
    (h : ∀ cls c, t.get? cls = some c → c.Ordered cls) (cls : Nat) (x : Symbol) :
    ∀ other c, (t.appendSymbol cls x).get? other = some c → c.Ordered other :=
  ordered_modify h cls fun _ hc => ⟨hc.procedures, hc.base⟩

theorem Tidy.declare {s : Session} {f : Frame} (h : s.Tidy) (hf : f.Placed s) (d : Declaration) :
    (s.declare f d).Tidy := by
  refine ⟨coherent_declare h.coherent hf d, ?_, ?_, ?_⟩ <;>
    obtain ⟨cls, counters, _, _, _, _, heq⟩ | ⟨counters, _, _, heq⟩ := s.declare_cases f d <;>
    rw [heq]
  · unfold Session.enterMember
    dsimp only
    split
    · exact parents_enterLocal (s := { s with counters }) h.parents 0 _
    · exact h.parents
  · exact parents_enterLocal (s := { s with counters }) h.parents f.block _
  · unfold Session.enterMember
    dsimp only
    split <;> exact h.procedures
  · exact h.procedures
  · unfold Session.enterMember
    dsimp only
    split <;> exact ordered_appendSymbol h.classes cls _
  · exact h.classes

theorem Tidy.change {K : OpCode → Prop} {s t : Session} {f : Frame} (h : s.Tidy)
    (hf : f.Placed s) (hc : Change K f s t) : t.Tidy := by
  rcases hc.sameNames_or_declare with hsame | ⟨d, rfl⟩
  · exact h.congr hsame.classes hsame.procedures hsame.headers
  · exact h.declare hf d

/-! ## Procedures -/

theorem Tidy.modifyProcedure {s : Session} (h : s.Tidy) (r : ProcRef) {g : Procedure → Procedure}
    (hblock : ∀ p, (g p).block = p.block) (hindex : ∀ p, (g p).index = p.index) :
    (s.modifyProcedure r g).Tidy := by
  have hco := h.coherent.modifyProcedure r hblock
  unfold Session.modifyProcedure at hco ⊢
  split at hco
  · exact ⟨hco, h.parents, h.procedures.modify _ hindex, h.classes⟩
  · refine ⟨hco, h.parents, h.procedures, ordered_modify h.classes _ fun c hc => ?_⟩
    exact ⟨hc.procedures.modify _ hindex, hc.base⟩

theorem ordered_register {s : Session} (h : s.Tidy) (scope : Scope) (p : Procedure) :
    (s.register scope p).procedures.Numbered ∧
      ∀ cls c, (s.register scope p).classes.get? cls = some c → c.Ordered cls := by
  unfold register
  split
  · refine ⟨h.procedures, ordered_modify h.classes _ fun c hc => ?_⟩
    exact ⟨hc.procedures.append _, hc.base⟩
  · exact ⟨h.procedures.append p, h.classes⟩

theorem Tidy.register {s : Session} (h : s.Tidy) (scope : Scope) (p : Procedure) :
    (s.register scope p).Tidy := by
  have hheader : (s.register scope p).header? = s.header? := by
    funext id
    unfold header? block?
    rw [blocks_register]
  obtain ⟨hprocedures, hclasses⟩ := ordered_register h scope p
  refine ⟨h.coherent.register scope p, ?_, hprocedures, hclasses⟩
  rw [hheader]
  exact h.parents

/-! ## Blocks and classes -/

theorem parents_of_new {s t : Session} {p : Nat} {proc : Option ProcRef} {x : SymbolTable}
    (h : ∀ id h p, s.header? id = some h → h.parent = some p → p < id) (hp : p < s.blocks.size)
    (hnew : ∀ id, t.header? id = if id = s.blocks.size then some ⟨some p, proc, x⟩ else s.header? id) :
    ∀ id h q, t.header? id = some h → h.parent = some q → q < id := by
  intro id hd q hs hq
  rw [hnew] at hs
  split at hs
  · next hid =>
    cases hs
    cases hq
    omega
  · exact h id hd q hs hq

theorem Tidy.openBlock {s : Session} {f : Frame} (h : s.Tidy) (hf : f.Stands s)
    (dialect : Dialect) : (s.openBlock f dialect).Tidy :=
  ⟨coherent_openBlock h.coherent hf.placed dialect,
    parents_of_new h.parents hf.inside (header?_openBlock s f dialect), h.procedures, h.classes⟩

theorem Tidy.openProcedure {s : Session} {f : Frame} (h : s.Tidy) (hf : f.Stands s)
    (p : Procedure) (message : String) : (s.openProcedure f p message).Tidy := by
  obtain ⟨hclasses, hprocedures⟩ := tables_openProcedure s f p message
  obtain ⟨hnumbered, hordered⟩ := ordered_register h f.scope p
  refine ⟨coherent_openProcedure h.coherent hf.placed (fun _ => hf.ownerClass) p message,
    parents_of_new h.parents hf.inside (header?_openProcedure s f p message), ?_, ?_⟩
  · rw [hprocedures]
    unfold Session.modifyProcedure
    split
    · refine hnumbered.modify _ ?_
      exact fun _ => rfl
    · exact hnumbered
  · rw [hclasses]
    unfold Session.modifyProcedure
    split
    · exact hordered
    · refine ordered_modify hordered _ fun c hc => ⟨hc.procedures.modify _ ?_, hc.base⟩
      exact fun _ => rfl

theorem stands_openBlock {s : Session} {f : Frame} (hf : f.Stands s) (dialect : Dialect) :
    ({ block := s.blocks.size, scope := f.scope, dialect } : Frame).Stands
      (s.openBlock f dialect) := by
  refine ⟨(Opens.block dialect hf.block?_isSome).placed hf.placed, ?_⟩
  exact (hf.grows (s.grows_openBlock f dialect)).owner

theorem stands_openProcedure {s : Session} {f : Frame} (hf : f.Stands s) (p : Procedure)
    (message : String) : (bodyFrame f s).Stands (s.openProcedure f p message) := by
  refine ⟨(Opens.procedure p message hf.block?_isSome fun _ => hf.ownerClass).placed hf.placed, ?_⟩
  intro h
  cases h

theorem Tidy.appendClass {s : Session} (h : s.Tidy) {c : Class} {classes : ClassTable}
    (hsymbols : c.symbols.Numbered) (hc : c.Ordered s.classes.size)
    (happ : s.classes.append? c = some classes) : Tidy { s with classes } := by
  refine ⟨h.coherent.appendClass hsymbols happ, h.parents, h.procedures, ?_⟩
  intro cls d hd
  rw [ClassTable.get?_append? happ] at hd
  split at hd
  · next hcls =>
    cases hd
    rw [hcls]
    exact hc
  · exact h.classes cls d hd

/-! ## Walks that end -/

/-- The blocks around a block can be listed. -/
theorem Tidy.enclosing? {s : Session} (h : s.Tidy) {id : Nat} (hid : (s.block? id).isSome) :
    ∃ blocks, s.enclosing? id = some blocks := by
  have hfuel : ∀ fuel id, id < fuel → (s.block? id).isSome →
      ∃ blocks, s.enclosingFrom fuel id = some blocks := by
    intro fuel
    induction fuel with
    | zero =>
      intro id hlt
      cases hlt
    | succ fuel ih =>
      intro id hlt hid
      obtain ⟨b, hb⟩ := Option.isSome_iff_exists.mp hid
      unfold Session.enclosingFrom
      rw [hb]
      dsimp only
      cases hp : b.parent with
      | none => exact ⟨[id], rfl⟩
      | some p =>
        have hhead := header?_of_block? hb
        have hlt' := h.parents id b.header p hhead hp
        obtain ⟨c, hc, _⟩ := h.coherent.around id b.header p hhead hp
        obtain ⟨rest, hrest⟩ := ih p (by omega) (by rw [← header?_isSome, hc]; rfl)
        exact ⟨id :: rest, by simp [hrest]⟩
  obtain ⟨b, hb⟩ := Option.isSome_iff_exists.mp hid
  exact hfuel _ id (Array.getElem?_eq_some_iff.mp hb).1 hid

/-- A walk towards the farthest base class gets there. -/
theorem Tidy.lineage_ends {s : Session} (h : s.Tidy) (i : Nat) :
    ∃ last, (s.classes.lineage i).getLast? = some last ∧
      (s.classes.get? last).bind Class.base = none := by
  -- A class that exists is behind its base classes; one that does not has none.
  have hgo : ∀ fuel i, (i < fuel ∨ s.classes.size ≤ i ∧ 0 < fuel) →
      ∃ last, (s.classes.lineageFrom fuel i).getLast? = some last ∧
        (s.classes.get? last).bind Class.base = none := by
    intro fuel
    induction fuel with
    | zero => omega
    | succ fuel ih =>
      intro i hi
      unfold ClassTable.lineageFrom
      cases hb : (s.classes.get? i).bind Class.base with
      | none => exact ⟨i, rfl, hb⟩
      | some b =>
        obtain ⟨c, hc, hbase⟩ := Option.bind_eq_some_iff.mp hb
        have hlt := (h.classes i c hc).base b hbase
        have hsize : i < s.classes.size := (Array.getElem?_eq_some_iff.mp hc).1
        obtain ⟨last, hlast, hnone⟩ := ih b (by omega)
        exact ⟨last, by rw [List.getLast?_cons, hlast]; rfl, hnone⟩
  exact hgo _ i (by omega)

end Session

/-! ## What lookups find is there -/

theorem MemberLookup.eq_found {l : MemberLookup} {m : MemberRef} (h : l.found? = some m) :
    l = .found m := by
  cases l with
  | found k =>
    cases h
    rfl
  | missing => cases h
  | inaccessible k => cases h

/-- A member that is found is declared in its class, and accessible with the access it has there. -/
theorem ClassTable.searchMember_accessible {t : ClassTable} {context : Option Nat}
    {declared : Class → Option (Nat × Access)} {hidden : Option MemberRef} {l : List Nat}
    {m : MemberRef} (h : t.searchMember context declared hidden l = .found m) :
    ∃ c access, t.get? m.owner = some c ∧ declared c = some (m.index, access) ∧
      t.isAccessible m.owner access context = true := by
  induction l generalizing hidden with
  | nil => cases hidden <;> cases h
  | cons owner rest ih =>
    simp only [searchMember] at h
    split at h
    · next index access hd =>
      obtain ⟨c, hc, hd⟩ := Option.bind_eq_some_iff.mp hd
      split at h
      · next haccess =>
        cases h
        exact ⟨c, access, hc, hd, haccess⟩
      · exact ih h
    · exact ih h

theorem ClassTable.searchMember_found {t : ClassTable} {context : Option Nat}
    {declared : Class → Option (Nat × Access)} {hidden : Option MemberRef} {l : List Nat}
    {m : MemberRef} (h : t.searchMember context declared hidden l = .found m) :
    ∃ c access, t.get? m.owner = some c ∧ declared c = some (m.index, access) := by
  obtain ⟨c, access, hc, hd, _⟩ := searchMember_accessible h
  exact ⟨c, access, hc, hd⟩

namespace Lowering.Sight

variable {v : Sight} {name : String} {r : SymbolRef}

theorem inClass_exists {cls : Nat} (h : v.inClass cls name = .found r) :
    (v.session.symbol? r).isSome := by
  unfold inClass at h
  split at h
  · cases h
  · cases h
  · next m hm =>
    split at h
    · next r' hr' =>
      cases h
      split at hr'
      · obtain ⟨i, hi, rfl⟩ := Option.map_eq_some_iff.mp hr'
        obtain ⟨x, hx, _⟩ := symbol?_of_findNamed? hi
        exact Option.isSome_iff_exists.mpr ⟨x, hx⟩
      · cases hr'
    · cases h
      obtain ⟨c, access, hc, hd⟩ := ClassTable.searchMember_found hm
      obtain ⟨i, hi, heq⟩ := Option.map_eq_some_iff.mp hd
      cases heq
      obtain ⟨x, hx, _⟩ := SymbolTable.findNamed?_eq_some hi
      refine Option.isSome_iff_exists.mpr ⟨x, ?_⟩
      unfold Session.symbol?
      dsimp only
      rw [hc]
      exact hx

theorem resolve_exists (h : v.resolve name = .found r) : (v.session.symbol? r).isSome := by
  rcases resolve_found h with (hp | ⟨b, _, hb⟩) | ⟨cls, -, hc⟩
  · obtain ⟨_, _, x, _, _, hx, _⟩ := inProcedure?_eq_some hp
    exact Option.isSome_iff_exists.mpr ⟨x, hx⟩
  · obtain ⟨_, x, _, hx, _⟩ := inBlock?_eq_some hb
    exact Option.isSome_iff_exists.mpr ⟨x, hx⟩
  · exact inClass_exists hc

theorem segmentTarget_exists {c : Cursor} (h : v.segmentTarget name c = .symbol r) :
    (v.session.symbol? r).isSome := by
  unfold segmentTarget at h
  split at h
  · unfold rootTarget at h
    dsimp only at h
    split at h
    · split at h <;> cases h
    · split at h
      · next hr =>
        cases h
        exact resolve_exists hr
      · cases h
      · split at h <;> cases h
  · unfold memberTarget at h
    split at h
    · cases h
    · split at h
      · cases h
      · split at h
        · next hr =>
          cases h
          exact inClass_exists hr
        · cases h
        · cases h

/-- A procedure that a call is resolved to is there. -/
theorem callTarget_exists (hs : v.session.Tidy) {arity : Nat} {c : Cursor} {p : ProcRef}
    (h : v.callTarget name arity c = .procedure p) : (v.session.procedure? p).isSome := by
  have hmethod {cls : Nat} {context : Option Nat} {m : MemberRef}
      (hm : v.session.classes.lookupProcedure cls name arity context = .found m) :
      (v.session.procedure? ⟨some m.owner, m.index⟩).isSome := by
    obtain ⟨k, access, hk, hd⟩ := ClassTable.searchMember_found hm
    obtain ⟨i, hi, heq⟩ := Option.map_eq_some_iff.mp hd
    cases heq
    rw [Session.procedure?_some, hk]
    exact (hs.classes _ k hk).procedures.find? hi
  unfold callTarget at h
  split at h
  · unfold rootCall at h
    dsimp only at h
    split at h
    · next m hm =>
      cases h
      obtain ⟨cls, _, hfound⟩ := Option.bind_eq_some_iff.mp hm
      exact hmethod (MemberLookup.eq_found hfound)
    · split at h
      · next i hi =>
        cases h
        exact hs.procedures.find? hi
      · split at h
        · cases h
        · next cls _ =>
          split at h
          · next i hi =>
            cases h
            obtain ⟨k, hk, hi⟩ := Option.bind_eq_some_iff.mp hi
            rw [Session.procedure?_some, hk]
            exact (hs.classes _ k hk).procedures.anyConstructor? hi
          · cases h
  · unfold memberCall at h
    dsimp only at h
    split at h
    · cases h
    · split at h
      · cases h
      · split at h
        · cases h
        · cases h
        · next m hm =>
          split at h
          · cases h
          · split at h
            · cases h
            · cases h
              exact hmethod hm

end Lowering.Sight

end Diglot
