import Diglot.Proofs.Origins.Bounces
import Diglot.Proofs.Origins.Calls

/-! # References in all sessions

In a session in which every unit compiled, whatever was watched in between, all that code refers to is there,
and fits (`Compiled.crossReferenced`).

* `Session.Compiled`: calls on a new session lead here, and these trees were lowered on the way.
* `Session.CrossReferenced`: calls, late-bound members and language blocks, clause by clause.
-/

set_option autoImplicit false

namespace Diglot

open Lowering

/-! ## Calls that lower -/

namespace Lowering

variable {s : Session}

/-- A unit that compiles keeps a property. -/
theorem Keeper.compile (K : Keeper false) (h : s.Used) {unit : List Node}
    (hunit : ∀ n ∈ unit, n.CallsOnly K.source) {dialect : Dialect} {block : Nat}
    (hok : (s.compile unit dialect).1 = .ok block)
    (hstart : K.holds [(s.unitStart dialect).1] (s.unitStart dialect).2) :
    K.holds [(s.unitStart dialect).1] (s.compile unit dialect).2 := by
  have hready := (h.fit.unitStart unit dialect).1
  have hlisted := (s.widens_unitStart dialect).listed h.listed
  have hkeeps := (Keeping.lowerCode fun n hn => Keeping.statement (K := K) (hunit n hn))
    [(s.unitStart dialect).1] _ _ ⟨⟨hready, hlisted⟩, rfl⟩
  have hends := hkeeps.keeps hstart
  rw [Session.compile_eq] at hok ⊢
  revert hok hends
  cases lowerCode unit (unitFrame (s.unitStart dialect).1 .global dialect unit)
    { session := (s.unitStart dialect).2 } with
  | ok _ t => exact fun _ => id
  | error e t => exact fun hok => by cases hok

/-- A watch expression leaves the property behind, whether it compiles or not. -/
theorem Keeper.watch (K : Keeper true) (h : s.Used) {id : Nat} {b : Block} (hb : s.block? id = some b)
    {node : Node} (hnode : node.CallsOnly K.source) (hstart : K.holds [id] { s with isWatching := true }) :
    ∃ t, K.leaves t ∧ (s.watchExpression id node).2 = { t with isWatching := false } := by
  have hopen : s.Widens { s with isWatching := true } := .ofTables rfl rfl rfl
  have hkeeps := Keeping.lowerWatch hnode [id] _ _
    ⟨⟨h.fit.watchStart hb, hopen.listed h.listed⟩, rfl⟩
  have hends := hkeeps.keeps hstart
  rw [Session.watchExpression_eq hb]
  revert hends
  cases lowerWatch node (s.watchSite id b) { session := { s with isWatching := true } } with
  | ok _ t => exact fun hends => ⟨t.session, K.left hends, rfl⟩
  | error e t => exact fun hends => ⟨t.session, hends, rfl⟩

end Lowering

namespace Session

variable {s t : Session}

/-! ## References before a unit -/

section
variable {source : String → List Node → Prop}

theorem Sourced.openUnit (h : s.Sourced source) (dialect : Dialect) :
    (s.unitStart dialect).2.Sourced source := by
  have hsame : (s.unitStart dialect).2.lateVariables = s.lateVariables ∧
      (s.unitStart dialect).2.lateFunctions = s.lateFunctions ∧
      (s.unitStart dialect).2.watch = s.watch := by
    change (Session.openUnit _ dialect).2.lateVariables = _ ∧
      (Session.openUnit _ dialect).2.lateFunctions = _ ∧ (Session.openUnit _ dialect).2.watch = _
    unfold Session.openUnit
    split
    · split <;> exact ⟨rfl, rfl, rfl⟩
    · exact ⟨rfl, rfl, rfl⟩
  refine h.persist (s.widens_unitStart dialect) (.ofSame hsame.1 hsame.2.1) fun code hcode => ?_
  refine hcode.before_opening hsame.2.2 fun id k code hid => ?_
  exact text_openUnit { s with isWatching := false } dialect hid

theorem Sourced.importSymbol (hs : s.Used) (h : s.Sourced source) (name : String) (type : Ty)
    (library : String) : (s.importSymbol name type library).2.Sourced source := by
  have hsame : (s.importSymbol name type library).2.lateVariables = s.lateVariables ∧
      (s.importSymbol name type library).2.lateFunctions = s.lateFunctions ∧
      (s.importSymbol name type library).2.watch = s.watch := by
    change (if s.blocks.isEmpty then _ else s : Session).lateVariables = _ ∧
      (if s.blocks.isEmpty then _ else s : Session).lateFunctions = _ ∧
      (if s.blocks.isEmpty then _ else s : Session).watch = _
    split <;> exact ⟨rfl, rfl, rfl⟩
  refine h.persist (widens_importSymbol hs name type library) (.ofSame hsame.1 hsame.2.1)
    fun code hcode => ?_
  exact hcode.before_opening hsame.2.2 fun id k code => text_importSymbol s name type library

theorem Sourced.of_blocks (h : s.Sourced source) (hst : s.Widens t) (hlate : s.KeepsLate t)
    (hb : t.blocks = s.blocks) (hw : t.watch = s.watch) : t.Sourced source := by
  refine h.persist hst hlate fun code hcode => hcode.before_opening hw fun id k code hid => .inr ?_
  rwa [← text_of_blocks hb]

end

theorem Bounced.addGlobal (h : s.Bounced []) (dialect : Dialect) (parent : Option Nat)
    (hparent : ∀ p, parent = some p → p < s.blocks.size) :
    (s.addBlock .global dialect parent).Bounced [] := by
  have hwatch : (s.addBlock .global dialect parent).watch = s.watch := by cases parent <;> rfl
  have hopen := h.opening (h.begun.addBlock .global dialect parent) hwatch
    (s.text_addBlock .global dialect parent) (s.links?_addBlock .global dialect hparent)
  refine hopen.drop ?_
  rw [kind?_addBlock, if_pos rfl]
  exact nofun

/-- A block is changed, but for its code and its place. -/
theorem Bounced.modifyBlock (h : s.Bounced []) {g : Block → Block} (hl : ∀ b, (g b).links = b.links)
    (hc : ∀ b, (g b).code = b.code) (he : ∀ b, (g b).entry = b.entry) (id : Nat) :
    (s.modifyBlock id g).Bounced [] := by
  have hk (b : Block) : (g b).kind = b.kind := congrArg Links.kind (hl b)
  have htext := text_modifyBlock hk hc s id
  refine h.still (h.begun.modifyBlock (fun b hb => ?_) id) h.watch (size_blocks_modifyBlock ..)
    (.ofSame (links?_modifyBlock hl s id)) (fun j pc i hi _ => ?_) fun child j pc hrun => ?_
  · rw [he, hc, hb]
  · rw [instruction?, htext]
    exact hi
  · rwa [← runsAt_ofText htext]

theorem Bounced.openUnit (h : s.Bounced []) (hfit : s.Fit) (dialect : Dialect) :
    (s.unitStart dialect).2.Bounced [] := by
  have hquiet : { s with isWatching := false }.Bounced [] := h.ofBlocks rfl rfl
  have hopen : (Session.openUnit { s with isWatching := false } dialect).2.Bounced [] := by
    unfold Session.openUnit
    split
    · split
      · exact hquiet.addGlobal dialect none nofun
      · refine hquiet.modifyBlock ?_ ?_ ?_ 0
        · exact fun _ => rfl
        · exact fun _ => rfl
        · exact fun _ => rfl
    · next hunits =>
      refine hquiet.addGlobal dialect (some 0) fun p hp => ?_
      cases hp
      exact hfit.filled hunits
  exact hopen.ofBlocks rfl rfl

theorem Bounced.importSymbol (h : s.Bounced []) (name : String) (type : Ty) (library : String) :
    (s.importSymbol name type library).2.Bounced [] := by
  have hstart : (if s.blocks.isEmpty then s.addBlock .global .associative none else s).Bounced [] := by
    split
    · exact h.addGlobal .associative none nofun
    · exact h
  unfold Session.importSymbol
  generalize (if s.blocks.isEmpty then s.addBlock .global .associative none else s) = t at hstart ⊢
  dsimp only
  have hcounters (counters : Counters) : { t with counters }.Bounced [] := hstart.ofBlocks rfl rfl
  refine (hcounters _).modifyBlock ?_ ?_ ?_ 0
  · exact fun _ => rfl
  · exact fun _ => rfl
  · exact fun _ => rfl

/-! ## Sessions in which every unit compiled -/

/-- The session can be reached by regular calls on a new session, of which every one that compiled a unit
returned its block. The trees are those of the units and of the watch expressions. -/
def Compiled (trees : List Node) (s : Session) : Prop :=
  ∃ options requests,
    (new options).Calls (fun t request => t.Regular request ∧ t.Accepted request) requests s ∧
      requests.flatMap Request.trees = trees

namespace Compiled

variable {trees : List Node}

theorem new (options : Options) : (new options).Compiled [] := ⟨options, [], .refl, rfl⟩

theorem call (h : s.Compiled trees) (request : Request) (hregular : s.Regular request)
    (haccepted : s.Accepted request) : (s.serve request).2.Compiled (trees ++ request.trees) := by
  obtain ⟨options, requests, hcalls, rfl⟩ := h
  refine ⟨options, _, hcalls.call request ⟨hregular, haccepted⟩, ?_⟩
  rw [List.flatMap_append, List.flatMap_singleton]

theorem ofCompiled {unit : List Node} {dialect : Dialect} (h : s.Compiled trees)
    (hok : (s.compile unit dialect).1.toBool = true) :
    (s.compile unit dialect).2.Compiled (trees ++ unit) :=
  h.call (.compile unit dialect) trivial (accepted_of_toBool hok)

theorem watchExpression (id : Nat) (node : Node) (h : s.Compiled trees) :
    (s.watchExpression id node).2.Compiled (trees ++ [node]) :=
  h.call (.watchExpression id node) trivial trivial

theorem used (h : s.Compiled trees) : s.Used := by
  obtain ⟨options, requests, hcalls, -⟩ := h
  exact ⟨options, requests, hcalls.mono fun _ _ _ hallows => hallows.1⟩

theorem finished (h : s.Compiled trees) : ∃ n, s.Finished n := by
  obtain ⟨options, requests, hcalls, -⟩ := h
  exact ⟨_, options, requests, hcalls.mono fun _ _ _ hallows => hallows.2, rfl⟩

end Compiled

/-- One of the trees has a call of the name with the arguments in it. -/
def InTrees (trees : List Node) (name : String) (args : List Node) : Prop :=
  ∃ n ∈ trees, n.Mentions name args

theorem callsOnly_inTrees {trees : List Node} {n : Node} (hn : n ∈ trees) :
    n.CallsOnly (InTrees trees) := fun _ _ hmention => ⟨n, hn, hmention⟩

theorem InTrees.append {trees : List Node} {name : String} {args : List Node}
    (h : InTrees trees name args) (more : List Node) : InTrees (trees ++ more) name args := by
  obtain ⟨n, hn, hmention⟩ := h
  exact ⟨n, List.mem_append_left more hn, hmention⟩

theorem Sourced.append {trees : List Node} (h : s.Sourced (InTrees trees)) (more : List Node) :
    s.Sourced (InTrees (trees ++ more)) := fun code hc pc i hi href =>
  (h code hc pc i hi href).mono (fun _ _ hin => hin.append more) (.refl s) (.refl s) (.refl code)

/-- In all sessions in which every unit compiled, references are sourced and language blocks are run. -/
theorem Compiled.referenced {trees : List Node} (h : s.Compiled trees) :
    s.Sourced (InTrees trees) ∧ s.Bounced [] := by
  obtain ⟨options, requests, hcalls, rfl⟩ := h
  induction hcalls with
  | refl =>
    have hcode {id pc : Nat} {i : Instruction} : (Session.new options).instruction? id pc ≠ some i :=
      nofun
    refine ⟨fun code hc pc i hi => ?_, ?_, ?_, List.nodup_nil, ?_, ?_, ?_⟩
    · cases hc with
      | block hid => cases hid
      | watch => cases hi
    · exact fun id b hb => by cases hb
    · exact fun i hi => absurd hi (Array.not_mem_empty _)
    · exact fun child hc => absurd hc List.not_mem_nil
    · exact fun child id pc ⟨i, hi, _⟩ => absurd hi hcode
    · exact fun child l hl => by cases hl
  | @call requests s request hcalls hallows ih =>
    have hs : s.Used := Compiled.used ⟨options, requests, hcalls, rfl⟩
    obtain ⟨hregular, haccepted⟩ := hallows
    rw [List.flatMap_append, List.flatMap_singleton]
    generalize requests.flatMap Request.trees = trees at ih ⊢
    obtain ⟨hsourced, hbounced⟩ := ih
    replace hsourced := hsourced.append request.trees
    cases request with
    | setFile file =>
      exact ⟨hsourced.of_blocks (.ofTables rfl rfl rfl) (.ofSame rfl rfl) rfl rfl, hbounced.ofBlocks rfl rfl⟩
    | setParsingModule on =>
      exact ⟨hsourced.of_blocks (.ofTables rfl rfl rfl) (.ofSame rfl rfl) rfl rfl, hbounced.ofBlocks rfl rfl⟩
    | importSymbol name type library =>
      exact ⟨hsourced.importSymbol hs name type library, hbounced.importSymbol name type library⟩
    | addClass c =>
      change (s.addClass c).2.Sourced _ ∧ (s.addClass c).2.Bounced []
      unfold Session.addClass
      split
      · next classes happend =>
        exact ⟨hsourced.of_blocks (hregular.widens happend) (.ofSame rfl rfl) rfl rfl,
          hbounced.ofBlocks rfl rfl⟩
      · exact ⟨hsourced, hbounced⟩
    | addMethod cls p =>
      change (s.addMethod cls p).2.Sourced _ ∧ (s.addMethod cls p).2.Bounced []
      unfold Session.addMethod
      split
      · exact ⟨hsourced.of_blocks (s.widens_register (.inClass cls) p) (.ofSame rfl rfl) rfl rfl,
          hbounced.ofBlocks rfl rfl⟩
      · exact ⟨hsourced, hbounced⟩
    | addProcedure p =>
      exact ⟨hsourced.of_blocks (s.widens_register .global p) (.ofSame rfl rfl) rfl rfl,
        hbounced.ofBlocks rfl rfl⟩
    | compile unit dialect =>
      obtain ⟨block, hok⟩ := haccepted
      have hunit : ∀ n ∈ unit, n.CallsOnly (InTrees (trees ++ unit)) :=
        fun n hn => callsOnly_inTrees (List.mem_append_right trees hn)
      refine ⟨?_, ?_⟩
      · exact (sourcing false (InTrees (trees ++ unit))).compile hs hunit hok (hsourced.openUnit dialect)
      · exact (bouncing false (InTrees (trees ++ unit))).compile hs hunit hok
          (hbounced.openUnit hs.fit dialect)
    | watchExpression id node =>
      change (s.watchExpression id node).2.Sourced _ ∧ (s.watchExpression id node).2.Bounced []
      cases hb : s.block? id with
      | none =>
        unfold Session.watchExpression
        rw [hb]
        exact ⟨hsourced, hbounced⟩
      | some b =>
        have hnode : node.CallsOnly (InTrees (trees ++ [node])) :=
          callsOnly_inTrees (List.mem_append_right trees (List.mem_singleton_self node))
        have hsourced' : { s with isWatching := true }.Sourced (InTrees (trees ++ [node])) :=
          hsourced.of_blocks (.ofTables rfl rfl rfl) (.ofSame rfl rfl) rfl rfl
        have hbounced' : { s with isWatching := true }.Bounced [] := hbounced.ofBlocks rfl rfl
        obtain ⟨t, ht, heq⟩ := (sourcing true _).watch hs hb hnode hsourced'
        obtain ⟨u, hu, heq'⟩ := (bouncing true _).watch hs hb hnode hbounced'
        refine ⟨?_, ?_⟩
        · rw [heq]
          exact Sourced.of_blocks ht (.ofTables rfl rfl rfl) (.ofSame rfl rfl) rfl rfl
        · rw [heq']
          exact (hu rfl).ofBlocks rfl rfl

/-! ## References -/

/-- All that the code of a session refers to is there, and fits. -/
structure CrossReferenced (trees : List Node) (s : Session) : Prop where
  /-- The call of a setter refers to a procedure that takes the one value that is stored. -/
  setter {code : Array Instruction} {pc k : Nat} {i : Instruction} {cls : Option Nat} :
    s.HasCode code → code[pc]? = some i → i.opcode = .call → i.op1 = some (.function (some k)) →
    i.op2 = some (.cls cls) → ∃ property, s.Answers ⟨cls, k⟩ (setterName property) 1
  /-- Any other call of a procedure comes from a call in one of the trees. Its arguments were lowered right
  before, and the procedure takes that many. -/
  known {code : Array Instruction} {pc k : Nat} {i : Instruction} {cls : Option Nat} :
    s.HasCode code → code[pc]? = some i → i.opcode = .callr → i.op1 = some (.function (some k)) →
    i.op2 = some (.cls cls) → ∃ name args, InTrees trees name args ∧ FollowsArgs code pc args ∧
      s.Answers ⟨cls, k⟩ name args.length
  /-- The entry of a late-bound procedure has the name that is called and the number of the arguments. -/
  late {code : Array Instruction} {pc n : Nat} {i : Instruction} :
    s.HasCode code → code[pc]? = some i → i.opcode = .callr → i.op1 = some (.dynamic n) →
    ∃ e args, s.lateFunctions[n]? = some e ∧ InTrees trees e.name args ∧ FollowsArgs code pc args ∧
      e.arity = args.length
  /-- There are no other calls. -/
  call {code : Array Instruction} {pc : Nat} {i : Instruction} :
    s.HasCode code → code[pc]? = some i → i.opcode = .call ∨ i.opcode = .callr →
    (∃ k cls, i.op1 = some (.function (some k)) ∧ i.op2 = some (.cls cls)) ∨
      i.opcode = .callr ∧ ∃ n, i.op1 = some (.dynamic n)
  member {code : Array Instruction} {pc n : Nat} {i : Instruction} :
    s.HasCode code → code[pc]? = some i → i.opcode = .pushm → i.op1 = some (.dynamic n) →
    n < s.lateVariables.size
  /-- A language block is run from one place, which lies in its parent, and from where its code begins. -/
  language {child : Nat} {b : Block} : s.block? child = some b → b.kind = .language →
    ∃ parent entry pc i, b.parent = some parent ∧ b.entry = some entry ∧
      s.instruction? parent pc = some i ∧
      i.IsOf (.binary .bounce (.block child) (.int (Operand.clamp entry))) ∧
      ∀ id pc', s.RunsAt child id pc' → id = parent ∧ pc' = pc
  /-- Watch expressions run no blocks. -/
  watch : ∀ i ∈ s.watch, i.opcode ≠ .bounce

section
variable {source : String → List Node → Prop} {code : Array Instruction} {pc : Nat} {i : Instruction}

theorem Refers.of_call (h : s.Refers source code pc i) (hop : i.opcode = .call) :
    ∃ r depth property, i.Calls r .call depth ∧ s.Answers r (setterName property) 1 := by
  cases h with
  | setter hi hp => exact ⟨_, _, _, hi, hp⟩
  | known hi | late hi | member hi =>
    obtain ⟨_, rfl⟩ := hi
    cases hop
  | bounce hi => cases hi.symm.trans hop

theorem Refers.of_callr (h : s.Refers source code pc i) (hop : i.opcode = .callr) :
    (∃ r depth name args, i.Calls r .callr depth ∧ source name args ∧ FollowsArgs code pc args ∧
      s.Answers r name args.length) ∨
    ∃ n e args, i.op1 = some (.dynamic n) ∧ s.lateFunctions[n]? = some e ∧ source e.name args ∧
      FollowsArgs code pc args ∧ e.arity = args.length := by
  cases h with
  | known hi hsource hp hargs => exact .inl ⟨_, _, _, _, hi, hsource, hargs, hp⟩
  | late hi he hsource harity hargs =>
    obtain ⟨_, rfl⟩ := hi
    exact .inr ⟨_, _, _, rfl, he, hsource, hargs, harity⟩
  | setter hi | member hi =>
    obtain ⟨_, rfl⟩ := hi
    cases hop
  | bounce hi => cases hi.symm.trans hop

theorem Refers.of_pushm (h : s.Refers source code pc i) (hop : i.opcode = .pushm) :
    ∃ n, i.op1 = some (.dynamic n) ∧ n < s.lateVariables.size := by
  cases h with
  | member hi hn =>
    obtain ⟨_, rfl⟩ := hi
    exact ⟨_, rfl, hn⟩
  | known hi | late hi | setter hi =>
    obtain ⟨_, rfl⟩ := hi
    cases hop
  | bounce hi => cases hi.symm.trans hop

end

/-- What an instruction calls is told by its operands. -/
theorem target_of_calls {i : Instruction} {r : ProcRef} {op : OpCode} {depth k : Nat} {cls : Option Nat}
    (h : i.Calls r op depth) (hk : i.op1 = some (.function (some k))) (hcls : i.op2 = some (.cls cls)) :
    r = ⟨cls, k⟩ := by
  obtain ⟨_, rfl⟩ := h
  obtain ⟨owner, index⟩ := r
  cases hk
  cases hcls
  rfl

/-- In a session in which every unit compiled, all that code refers to is there, and fits. -/
theorem Compiled.crossReferenced {trees : List Node} (h : s.Compiled trees) :
    s.CrossReferenced trees := by
  obtain ⟨hsourced, hbounced⟩ := h.referenced
  have hrefers {code : Array Instruction} {pc : Nat} {i : Instruction} (hc : s.HasCode code)
      (hi : code[pc]? = some i) (href : i.isReference = true) :
      s.Refers (InTrees trees) code pc i := hsourced code hc pc i hi href
  have hcall {i : Instruction} (hop : i.opcode = .call) : i.isReference = true := by
    rw [Instruction.isReference, hop]
  have hcallr {i : Instruction} (hop : i.opcode = .callr) : i.isReference = true := by
    rw [Instruction.isReference, hop]
  refine ⟨fun hc hi hop hk hcls => ?_, fun hc hi hop hk hcls => ?_, fun hc hi hop hn => ?_,
    fun hc hi hop => ?_, fun hc hi hop hn => ?_, fun {child b} hb hkind => ?_, hbounced.watch⟩
  · obtain ⟨r, _, property, hcalls, hp⟩ := (hrefers hc hi (hcall hop)).of_call hop
    exact ⟨property, target_of_calls hcalls hk hcls ▸ hp⟩
  · rcases (hrefers hc hi (hcallr hop)).of_callr hop with
      ⟨r, _, name, args, hcalls, hsource, hargs, hp⟩ | ⟨n, _, _, hn, _⟩
    · exact ⟨name, args, hsource, hargs, target_of_calls hcalls hk hcls ▸ hp⟩
    · cases hk.symm.trans hn
  · rcases (hrefers hc hi (hcallr hop)).of_callr hop with
      ⟨r, _, _, _, ⟨_, rfl⟩, _⟩ | ⟨m, e, args, hm, he, hsource, hargs, harity⟩
    · cases hn
    · cases hn.symm.trans hm
      exact ⟨e, args, he, hsource, hargs, harity⟩
  · rcases hop with hop | hop
    · obtain ⟨r, _, _, ⟨_, rfl⟩, _⟩ := (hrefers hc hi (hcall hop)).of_call hop
      exact .inl ⟨_, _, rfl, rfl⟩
    · rcases (hrefers hc hi (hcallr hop)).of_callr hop with ⟨r, _, _, _, ⟨_, rfl⟩, _⟩ | ⟨n, _, _, hn, _⟩
      · exact .inl ⟨_, _, rfl, rfl⟩
      · exact .inr ⟨hop, n, hn⟩
  · obtain ⟨m, hm, hlt⟩ := (hrefers hc hi (by rw [Instruction.isReference, hop, hn])).of_pushm hop
    cases hn.symm.trans hm
    exact hlt
  · obtain ⟨parent, pc, i, hi, hof, hparent, honly⟩ :=
      hbounced.run child _ (links?_eq_some.mpr ⟨b, hb, rfl⟩) hkind List.not_mem_nil
    refine ⟨parent, 0, pc, i, hparent, ?_, hi, hof, honly⟩
    -- A block with code begins at its first instruction, and a finished block has code.
    obtain ⟨n, hn⟩ := h.finished
    have htext : s.text child = some (b.kind, b.code) := by rw [text, hb, Option.map_some]
    have hunits : 0 < n := by
      refine Nat.pos_of_ne_zero fun hzero => ?_
      have hglobal := (hn.proper.unfilled hzero child _ _ htext).2.1
      rw [hkind] at hglobal
      cases hglobal
    exact ((hn.proper.closed hunits child _ _ htext).finishes (hbounced.begun child b hb)).entry

/-- An object is made, its member is set to the result of a function, and what nothing is known of is read
and called. A language block follows. -/
def sampleReferences : List Node :=
  let name (x : String) : Node := .identifier (.plain x .nil)
  let call (x : String) (args : List Node) : Node := .call ⟨x, args, [], [], .nil⟩
  let one : Node := .literal .int "1" .nil
  [.classDecl
    { name := "P", base := none, members := [⟨"x", .var, none, false, .isPublic, .stack, .nil⟩]
      methods := [{ generated "P" [] [] with isConstructor := true }], attributes := [], span := .nil },
   .function (generated "f" [] [.ret (some one) .nil]),
   .assign (name "p") (call "P" []) .nil,
   .assign (.join (name "p") (name "x")) (call "f" []) .nil,
   .assign (name "q") (.join (name "p") (name "z")) .nil,
   .assign (name "r") (.join (name "p") (call "g" [one])) .nil,
   .block .imperative [] .nil]

/-- The unit has references of all kinds, and a watch expression adds one. -/
theorem sampleReferences_crossReferenced :
    let node : Node := .call ⟨"h", [], [], [], .nil⟩
    let s := (((new {}).compile sampleReferences .associative).2.watchExpression 0 node).2
    s.Compiled ([] ++ sampleReferences ++ [node]) ∧
      (s.block? 0).map (fun b => (b.code.toList.filter Instruction.isReference).map Instruction.text) =
        some ["callr fn2, class12, 0", "callr fn0, class_global, 0", "call fn1, class12, 1",
          "pushm dyn0, class_global, block0", "callr dyn0, class_global, 1", "bounce block5, 0"] ∧
      s.watch.toList.map Instruction.text =
        ["callr dyn1, class_global, 0", "popw var3, class_global", "retcn"] ∧
      s.CrossReferenced ([] ++ sampleReferences ++ [node]) := by
  intro node s
  have hs : s.Compiled ([] ++ sampleReferences ++ [node]) :=
    .watchExpression 0 _ ((Compiled.new {}).ofCompiled (by decide +kernel))
  exact ⟨hs, by decide +kernel, by decide +kernel, hs.crossReferenced⟩

end Session

end Diglot
