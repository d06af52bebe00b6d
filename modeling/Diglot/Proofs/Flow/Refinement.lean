import Diglot.Proofs.Depth
import Diglot.Proofs.Flow.Stream

/-! # Lowering preserves control flow

Statements of an imperative block become code that does what the statements say: for all outcomes of
the conditions, the code runs the fragments of the statements in the order in which the source runs
them (`lowerAll_halts_iff`).

A list inside of a loop is not complete before the loop is: the jumps of its `break`s and `continue`s
wait for their targets. What lowering a list establishes (`Lowered`) is therefore a fact about every
code that agrees with the emitted one except for the waiting jumps, which go where they should
(`Wired`).
-/

set_option autoImplicit false

namespace Diglot.Flow

open Lowering

/-! ## Fragments and what emitted them -/

/-- In the course of lowering from `s` to `t`, a step emitted this fragment of the code. -/
def EmittedBy {α : Type} (m : Lower α) (f : Frame) (s t : State) (code : Array Instruction)
    (c : Fragment) : Prop :=
  ∃ g u a v, g.site = f.site ∧ m g u = .ok a v ∧
    Evolves (fun _ => True) f.site s.session u.session ∧
    Evolves (fun _ => True) f.site v.session t.session ∧
    c = ⟨(codeOf f u).size, (codeOf f v).size⟩ ∧
    ∀ pc, c.first ≤ pc → pc < c.last → code[pc]? = (codeOf f v)[pc]?

/-- Every fragment was emitted for the piece that it annotates. -/
def Emitted (f : Frame) (s t : State) (code : Array Instruction) : Flow → Prop
  | skip => True
  | seq first rest => first.Emitted f s t code ∧ rest.Emitted f s t code
  | plain node c => node.isControl = false ∧ EmittedBy (statement node) f s t code c
  | leave value span c => EmittedBy (statement (.ret value span)) f s t code c
  | branch condition test body otherwise span =>
    EmittedBy (lowerCondition condition span) f s t code test ∧ body.Emitted f s t code ∧
      otherwise.Emitted f s t code
  | loop condition test body span =>
    EmittedBy (lowerCondition condition span) f s t code test ∧ body.Emitted f s t code
  | breakLoop _ => True
  | continueLoop _ => True

section
variable {f : Frame} {s s' t t' : State} {code : Array Instruction}
  (hs : Evolves (fun _ => True) f.site s'.session s.session)
  (ht : Evolves (fun _ => True) f.site t.session t'.session)
include hs ht

theorem EmittedBy.mono {α : Type} {m : Lower α} {c : Fragment} (h : EmittedBy m f s t code c) :
    EmittedBy m f s' t' code c := by
  obtain ⟨g, u, a, v, hg, hrun, hu, hv, hc, hcode⟩ := h
  exact ⟨g, u, a, v, hg, hrun, hs.trans hu, hv.trans ht, hc, hcode⟩

theorem Emitted.mono {x : Flow} (h : x.Emitted f s t code) : x.Emitted f s' t' code := by
  induction x with
  | skip => trivial
  | seq first rest ihf ihr => exact ⟨ihf h.1, ihr h.2⟩
  | plain node c => exact ⟨h.1, h.2.mono hs ht⟩
  | leave value span c => exact EmittedBy.mono hs ht h
  | branch condition test body otherwise span ihb iho =>
    exact ⟨h.1.mono hs ht, ihb h.2.1, iho h.2.2⟩
  | loop condition test body span ihb => exact ⟨h.1.mono hs ht, ihb h.2⟩
  | breakLoop span => trivial
  | continueLoop span => trivial

end

/-! ## Waiting jumps -/

/-- The jumps that wait for their targets lie behind `first`, each at a place of its own. -/
structure Pending (exits : Exits) (first : Nat) (code : Array Instruction) : Prop where
  nodup : (exits.breaks ++ exits.continues).Nodup
  jump : ∀ pc ∈ exits.breaks ++ exits.continues,
    first ≤ pc ∧ ∃ i, code[pc]? = some i ∧ i.opcode = .jmp

/-- Code agrees with what was emitted from `first` to `last`, except that the waiting jumps go where
they should. -/
structure Wired (code emitted : Array Instruction) (first last : Nat) (exits : Exits)
    (brk cont : Nat) : Prop where
  same : ∀ pc, first ≤ pc → pc < last → pc ∉ exits.breaks → pc ∉ exits.continues →
    code[pc]? = emitted[pc]?
  breaks : ∀ pc ∈ exits.breaks, JumpsTo code pc brk
  continues : ∀ pc ∈ exits.continues, JumpsTo code pc cont

/-- What lowering statements from `s` to `t` establishes. -/
structure Lowered (f : Frame) (s t : State) (exits : Exits) (nodes : List Node) : Prop where
  evolves : Evolves (fun _ => True) f.site s.session t.session
  keeps : Extends (codeOf f s) (codeOf f t)
  pending : Pending exits (codeOf f s).size (codeOf f t)
  closed : f.inLoop = false → exits = .none
  follows : ∃ x : Flow, x.source = nodes ∧ ∀ code brk cont,
    Wired code (codeOf f t) (codeOf f s).size (codeOf f t).size exits brk cont →
      x.Emitted f.site s t code ∧ Simulates code x (codeOf f s).size (codeOf f t).size brk cont

theorem Pending.lt {exits : Exits} {first : Nat} {code : Array Instruction}
    (h : Pending exits first code) {pc : Nat} (hpc : pc ∈ exits.breaks ++ exits.continues) :
    first ≤ pc ∧ pc < code.size := by
  obtain ⟨hle, i, hi, _⟩ := h.jump pc hpc
  exact ⟨hle, (Array.getElem?_eq_some_iff.mp hi).1⟩

theorem pending_none (first : Nat) (code : Array Instruction) : Pending .none first code :=
  ⟨List.nodup_nil, fun _ h => by cases h⟩

theorem mem_exits_append {x y : Exits} {pc : Nat} :
    pc ∈ (x.append y).breaks ++ (x.append y).continues ↔
      pc ∈ x.breaks ++ x.continues ∨ pc ∈ y.breaks ++ y.continues := by
  simp only [Exits.append, List.mem_append]
  grind

theorem Pending.append {x y : Exits} {first : Nat} {old new : Array Instruction}
    (hx : Pending x first old) (hy : Pending y old.size new) (hle : first ≤ old.size)
    (hkeep : Extends old new) : Pending (x.append y) first new := by
  refine ⟨?_, fun pc hpc => ?_⟩
  · have hperm : ((x.append y).breaks ++ (x.append y).continues).Perm
        ((x.breaks ++ x.continues) ++ (y.breaks ++ y.continues)) := by
      simp only [Exits.append, List.append_assoc]
      refine List.Perm.append_left _ ?_
      rw [← List.append_assoc, ← List.append_assoc]
      exact List.Perm.append_right _ List.perm_append_comm
    rw [hperm.nodup_iff]
    refine List.nodup_append.mpr ⟨hx.nodup, hy.nodup, fun a ha b hb heq => ?_⟩
    have hlt := (hx.lt ha).2
    have hge := (hy.lt hb).1
    omega
  · rcases mem_exits_append.mp hpc with hpc | hpc
    · obtain ⟨hge, i, hi, hop⟩ := hx.jump pc hpc
      exact ⟨hge, i, by rw [hkeep.same pc (hx.lt hpc).2, hi], hop⟩
    · obtain ⟨hge, i, hi, hop⟩ := hy.jump pc hpc
      exact ⟨Nat.le_trans hle hge, i, hi, hop⟩

theorem Pending.congr {exits : Exits} {first first' : Nat} {old new : Array Instruction}
    (h : Pending exits first old) (hle : first' ≤ first)
    (hsame : ∀ pc ∈ exits.breaks ++ exits.continues, new[pc]? = old[pc]?) :
    Pending exits first' new := by
  refine ⟨h.nodup, fun pc hpc => ?_⟩
  obtain ⟨hge, i, hi, hop⟩ := h.jump pc hpc
  exact ⟨Nat.le_trans hle hge, i, by rw [hsame pc hpc, hi], hop⟩

/-- Wired code is wired on every part whose waiting jumps are those of the part. -/
theorem Wired.part {code old new : Array Instruction} {first last first' last' brk cont : Nat}
    {x y : Exits} (h : Wired code new first last y brk cont)
    (hb : ∀ pc ∈ x.breaks, pc ∈ y.breaks) (hc : ∀ pc ∈ x.continues, pc ∈ y.continues)
    (hin : ∀ pc, first' ≤ pc → pc < last' → first ≤ pc ∧ pc < last ∧ new[pc]? = old[pc]? ∧
      (pc ∈ y.breaks → pc ∈ x.breaks) ∧ (pc ∈ y.continues → pc ∈ x.continues)) :
    Wired code old first' last' x brk cont := by
  refine ⟨fun pc hge hlt hxb hxc => ?_, fun pc hpc => h.breaks pc (hb pc hpc),
    fun pc hpc => h.continues pc (hc pc hpc)⟩
  obtain ⟨hge', hlt', hsame, hyb, hyc⟩ := hin pc hge hlt
  rw [h.same pc hge' hlt' (fun hm => hxb (hyb hm)) (fun hm => hxc (hyc hm)), hsame]

/-- Where no jump waits, wired code is the emitted code. -/
theorem Wired.outside {code new : Array Instruction} {first last brk cont pc : Nat} {x : Exits}
    (h : Wired code new first last x brk cont) (hge : first ≤ pc) (hlt : pc < last)
    (hnot : pc ∉ x.breaks ++ x.continues) : code[pc]? = new[pc]? := by
  rw [List.mem_append, not_or] at hnot
  exact h.same pc hge hlt hnot.1 hnot.2

section
variable {code old new : Array Instruction} {first last first' last' brk cont : Nat} {x y : Exits}
  (h : Wired code new first last (x.append y) brk cont) (hfirst : first ≤ first')
  (hlast : last' ≤ last) (hsame : ∀ pc, first' ≤ pc → pc < last' → new[pc]? = old[pc]?)
include h hfirst hlast hsame

/-- Code with two groups of waiting jumps is wired where none of the second group waits. -/
theorem Wired.left (hy : ∀ pc ∈ y.breaks ++ y.continues, pc < first' ∨ last' ≤ pc) :
    Wired code old first' last' x brk cont := by
  refine h.part (fun _ => List.mem_append_left _) (fun _ => List.mem_append_left _) ?_
  intro pc hge hlt
  have hnot : pc ∉ y.breaks ++ y.continues := fun hmem => by
    have := hy pc hmem
    omega
  rw [List.mem_append, not_or] at hnot
  refine ⟨by omega, by omega, hsame pc hge hlt, fun hmem => ?_, fun hmem => ?_⟩
  · exact (List.mem_append.mp hmem).resolve_right hnot.1
  · exact (List.mem_append.mp hmem).resolve_right hnot.2

theorem Wired.right (hx : ∀ pc ∈ x.breaks ++ x.continues, pc < first' ∨ last' ≤ pc) :
    Wired code old first' last' y brk cont := by
  refine h.part (fun _ => List.mem_append_right _) (fun _ => List.mem_append_right _) ?_
  intro pc hge hlt
  have hnot : pc ∉ x.breaks ++ x.continues := fun hmem => by
    have := hx pc hmem
    omega
  rw [List.mem_append, not_or] at hnot
  refine ⟨by omega, by omega, hsame pc hge hlt, fun hmem => ?_, fun hmem => ?_⟩
  · exact (List.mem_append.mp hmem).resolve_left hnot.1
  · exact (List.mem_append.mp hmem).resolve_left hnot.2

end

/-! ## Lists -/

/-- Wired code of two stretches is wired on each of them. -/
theorem wired_append {code old new : Array Instruction} {x y : Exits} {first brk cont : Nat}
    (h : Wired code new first new.size (x.append y) brk cont) (hx : Pending x first old)
    (hy : Pending y old.size new) (hle : first ≤ old.size) (hkeep : Extends old new) :
    Wired code old first old.size x brk cont ∧ Wired code new old.size new.size y brk cont := by
  constructor
  · refine h.left (Nat.le_refl _) hkeep.size_le (fun pc _ hlt => hkeep.same pc hlt) fun pc hpc => ?_
    exact .inr (hy.lt hpc).1
  · refine h.right hle (Nat.le_refl _) (fun _ _ _ => rfl) fun pc hpc => ?_
    exact .inl (hx.lt hpc).2

theorem lowered_nil (f : Frame) (s : State) : Lowered f s s .none [] where
  evolves := .refl _ _ _
  keeps := .refl _
  pending := pending_none _ _
  closed _ := rfl
  follows := ⟨.skip, rfl, fun _ _ _ _ => ⟨trivial, simulates_skip _⟩⟩

theorem Lowered.append {f : Frame} {s u t : State} {x y : Exits} {nodes rest : List Node}
    (h : Lowered f s u x nodes) (h' : Lowered f u t y rest) :
    Lowered f s t (x.append y) (nodes ++ rest) where
  evolves := h.evolves.trans h'.evolves
  keeps := h.keeps.trans h'.keeps
  pending := h.pending.append h'.pending h.keeps.size_le h'.keeps
  closed hloop := by rw [h.closed hloop, h'.closed hloop]; rfl
  follows := by
    obtain ⟨a, ha, hsim⟩ := h.follows
    obtain ⟨b, hb, hsim'⟩ := h'.follows
    refine ⟨.seq a b, by simp only [source, ha, hb], fun code brk cont hwired => ?_⟩
    obtain ⟨hwa, hwb⟩ := wired_append hwired h.pending h'.pending h.keeps.size_le h'.keeps
    obtain ⟨hea, hsa⟩ := hsim code brk cont hwa
    obtain ⟨heb, hsb⟩ := hsim' code brk cont hwb
    exact ⟨⟨hea.mono (f := f.site) (.refl _ _ _) h'.evolves,
      heb.mono (f := f.site) h.evolves (.refl _ _ _)⟩, simulates_seq hsa hsb⟩

/-- A list is lowered faithfully if its statements are. -/
theorem lowered_all {f : Frame} {st : LowerStatement} {nodes : List Node}
    (hst : ∀ n ∈ nodes, ∀ s t exits, Live f s → st n f s = .ok exits t → Lowered f s t exits [n])
    {s t : State} {exits : Exits} (hl : Live f s) (hrun : lowerAll st nodes f s = .ok exits t) :
    Lowered f s t exits nodes := by
  induction nodes generalizing s exits with
  | nil =>
    cases hrun
    exact lowered_nil f _
  | cons n rest ih =>
    obtain ⟨x, u, hn, hrest⟩ := bind_eq_ok.mp hrun
    obtain ⟨y, v, hall, hpure⟩ := bind_eq_ok.mp hrest
    cases hpure
    have hfirst := hst n (List.mem_cons_self ..) s u x hl hn
    have hlast := ih (fun m hm => hst m (List.mem_cons_of_mem n hm)) (hl.evolves hfirst.evolves) hall
    exact hfirst.append hlast

/-! ## Statements without inner statements -/

/-- Without waiting jumps, code agrees with what was emitted. -/
theorem Wired.isStraight {code emitted : Array Instruction} {first last brk cont : Nat} {c : Fragment}
    (h : Wired code emitted first last .none brk cont) (hc : IsStraight emitted c)
    (hfirst : first ≤ c.first) (hlast : c.last ≤ last) : IsStraight code c := by
  refine ⟨hc.1, fun pc hge hlt => ?_⟩
  rw [h.same pc (by omega) (by omega) (List.not_mem_nil) (List.not_mem_nil)]
  exact hc.2 pc hge hlt

theorem lowered_plain {f : Frame} {s t : State} {n : Node} {m : Lower Unit} (hl : Live f s)
    (hm : Evolving OpCode.IsStraight m) (hn : n.isControl = false)
    (hst : statement n f s = Lowering.plain m f s) {exits : Exits}
    (hrun : statement n f s = .ok exits t) : Lowered f s t exits [n] := by
  rw [hst] at hrun
  obtain ⟨⟨⟩, u, hu, hpure⟩ := bind_eq_ok.mp hrun
  cases hpure
  have hgrown := grown_of_evolving hm hu hl
  refine ⟨hgrown.evolves, hgrown.keeps, pending_none _ _, fun _ => rfl,
    .plain n ⟨(codeOf f s).size, (codeOf f t).size⟩, rfl, fun code brk cont hwired => ⟨⟨hn, ?_⟩, ?_⟩⟩
  · refine ⟨f, s, .none, t, rfl, hst.trans hrun, .refl _ _ _, .refl _ _ _, rfl, fun pc hge hlt => ?_⟩
    exact hwired.same pc hge hlt (List.not_mem_nil) (List.not_mem_nil)
  · exact simulates_plain (hwired.isStraight hgrown.straight (Nat.le_refl _) (Nat.le_refl _))

/-- The code of a return is straight up to the instruction that leaves. -/
theorem returnStatement_ok {value : Option Node} {span : Span} {f : Frame} {s t : State}
    (hl : Live f s) (hrun : returnStatement value span f s = .ok () t) :
    Extends (codeOf f s) (codeOf f t) ∧ ∃ last, (codeOf f t).size = last + 1 ∧
      IsStraight (codeOf f t) ⟨(codeOf f s).size, last⟩ ∧ IsReturn (codeOf f t) last := by
  rw [returnStatement_eq] at hrun
  obtain ⟨⟨⟩, u, hu, hleave⟩ := bind_eq_ok.mp hrun
  obtain ⟨p, v, hv, hpure⟩ := bind_eq_ok.mp hleave
  cases hpure
  have hgrown := grown_of_evolving (Evolving.lowerResult value span) hu hl
  simp only [emitLeave, run_bind, run_read] at hv
  have hpush := (emitStepping_ok hv hgrown.live).2
  refine ⟨hgrown.keeps.trans hpush.keeps, (codeOf f u).size, hpush.size, ⟨hgrown.straight.1, ?_⟩, ?_⟩
  · intro pc hge hlt
    obtain ⟨i, hi, hop⟩ := hgrown.straight.2 pc hge hlt
    exact ⟨i, by rw [hpush.keeps.same pc hlt, hi], hop⟩
  · obtain ⟨debug, hlast⟩ := hpush.last
    refine ⟨_, hlast, ?_⟩
    cases f.scope.isBody f.block with
    | true => exact .inl rfl
    | false => exact .inr rfl

theorem lowered_return {f : Frame} {s t : State} {value : Option Node} {span : Span} (hl : Live f s)
    {exits : Exits}
    (hst : statement (.ret value span) f s = Lowering.plain (returnStatement value span) f s)
    (hrun : statement (.ret value span) f s = .ok exits t) :
    Lowered f s t exits [.ret value span] := by
  rw [hst] at hrun
  obtain ⟨⟨⟩, u, hu, hpure⟩ := bind_eq_ok.mp hrun
  cases hpure
  obtain ⟨hkeep, last, hsize, hstraight, hret⟩ := returnStatement_ok hl hu
  have hev := (Evolving.returnStatement value span).run hu
  refine ⟨hev, hkeep, pending_none _ _, fun _ => rfl,
    .leave value span ⟨(codeOf f s).size, (codeOf f t).size⟩, rfl, fun code brk cont hwired => ⟨?_, ?_⟩⟩
  · refine ⟨f, s, .none, t, rfl, hst.trans hrun, .refl _ _ _, .refl _ _ _, rfl, fun pc hge hlt => ?_⟩
    exact hwired.same pc hge hlt (List.not_mem_nil) (List.not_mem_nil)
  · have hle : (codeOf f s).size ≤ last := hstraight.1
    rw [hsize] at hwired ⊢
    refine simulates_leave (hwired.isStraight hstraight (Nat.le_refl _) (Nat.le_succ _)) ?_
    obtain ⟨i, hi, hop⟩ := hret
    refine ⟨i, ?_, hop⟩
    rw [hwired.same last hle (Nat.lt_succ_self _) (List.not_mem_nil) (List.not_mem_nil), hi]

/-! ## Leaving a loop -/

theorem lowerExit_ok {keyword : String} {span : Span} {exits : Nat → Exits} {f : Frame} {s t : State}
    {x : Exits} (hl : Live f s) (hrun : lowerExit keyword span exits f s = .ok x t) :
    f.inLoop = true ∧ x = exits (codeOf f s).size ∧ Pushed f s t (.unary .jmp (.label none)) := by
  obtain ⟨g, u, hread, hrun⟩ := bind_eq_ok.mp hrun
  cases hread
  cases hloop : f.inLoop with
  | false => simp [hloop] at hrun
  | true =>
    simp only [hloop, Bool.not_true, Bool.false_eq_true, if_false] at hrun
    obtain ⟨p, u, hu, hpure⟩ := bind_eq_ok.mp hrun
    cases hpure
    obtain ⟨rfl, hpush⟩ := emitStepping_ok hu hl
    exact ⟨rfl, rfl, hpush⟩

/-- A single waiting jump behind the code. -/
theorem Pushed.pending {f : Frame} {s t : State} (h : Pushed f s t (.unary .jmp (.label none)))
    {exits : Exits} (hx : exits.breaks ++ exits.continues = [(codeOf f s).size]) :
    Pending exits (codeOf f s).size (codeOf f t) := by
  refine ⟨by simp [hx], fun pc hpc => ?_⟩
  rw [hx] at hpc
  rw [List.mem_singleton.mp hpc]
  obtain ⟨debug, hlast⟩ := h.last
  exact ⟨Nat.le_refl _, _, hlast, rfl⟩

theorem lowered_break {f : Frame} {s t : State} {span : Span} {x : Exits} (hl : Live f s)
    (hrun : lowerExit "break" span (fun jump => { breaks := [jump] }) f s = .ok x t) :
    Lowered f s t x [.breakLoop span] := by
  obtain ⟨hloop, rfl, hpush⟩ := lowerExit_ok hl hrun
  refine ⟨hpush.evolves, hpush.keeps, hpush.pending rfl, fun h => ?_,
    .breakLoop span, rfl, fun code brk cont hwired => ⟨trivial, ?_⟩⟩
  · rw [hloop] at h
    cases h
  · obtain ⟨i, hi, hop, ht⟩ := hwired.breaks _ (List.mem_singleton_self _)
    exact simulates_breakLoop hi hop ht

theorem lowered_continue {f : Frame} {s t : State} {span : Span} {x : Exits} (hl : Live f s)
    (hrun : lowerExit "continue" span (fun jump => { continues := [jump] }) f s = .ok x t) :
    Lowered f s t x [.continueLoop span] := by
  obtain ⟨hloop, rfl, hpush⟩ := lowerExit_ok hl hrun
  refine ⟨hpush.evolves, hpush.keeps, hpush.pending rfl, fun h => ?_,
    .continueLoop span, rfl, fun code brk cont hwired => ⟨trivial, ?_⟩⟩
  · rw [hloop] at h
    cases h
  · obtain ⟨i, hi, hop, ht⟩ := hwired.continues _ (List.mem_singleton_self _)
    exact simulates_continueLoop hi hop ht

/-! ## Conditionals -/

/-- Code that keeps the code of a condition has its fragment. -/
theorem emittedBy_condition {condition : Node} {span : Span} {f : Frame} {s u : State} (t : State)
    (code : Array Instruction) (hrun : lowerCondition condition span f s = .ok () u)
    (hgrown : Grown f s u) (hev : Evolves (fun _ => True) f.site u.session t.session)
    (hsame : ∀ pc, (codeOf f s).size ≤ pc → pc < (codeOf f u).size → code[pc]? = (codeOf f u)[pc]?) :
    EmittedBy (lowerCondition condition span) f.site s t code
        ⟨(codeOf f s).size, (codeOf f u).size⟩ ∧
      IsStraight code ⟨(codeOf f s).size, (codeOf f u).size⟩ := by
  refine ⟨⟨f, s, (), u, rfl, hrun, .refl _ _ _, hev, rfl, hsame⟩, hgrown.straight.1,
    fun pc hge hlt => ?_⟩
  rw [hsame pc hge hlt]
  exact hgrown.straight.2 pc hge hlt

section
variable {f : Frame} {u v a b : State} {target : Nat} {code : Array Instruction}
  (h : Patched f a b (codeOf f u).size target)
  (hkeep : (codeOf f a)[(codeOf f u).size]? = (codeOf f v)[(codeOf f u).size]?)
  (hcode : code[(codeOf f u).size]? = (codeOf f b)[(codeOf f u).size]?)
include h hkeep hcode

/-- A jump that was emitted without its target and patched later goes there. -/
theorem Patched.jumpsTo (hv : Pushed f u v (.unary .jmp (.label none))) :
    JumpsTo code (codeOf f u).size target := by
  obtain ⟨debug, hlast⟩ := hv.last
  obtain ⟨j, hj, hself⟩ := h.self _ (hkeep.trans hlast)
  obtain ⟨hop, hlabel, -, -⟩ := patch_eq hj
  exact ⟨j, hcode.trans hself, hop, hlabel rfl⟩

theorem Patched.testsZero (hv : Pushed f u v (.binary .jz (.register .cx) (.label none))) :
    Tests code (codeOf f u).size ((codeOf f u).size + 1) target := by
  obtain ⟨debug, hlast⟩ := hv.last
  obtain ⟨j, hj, hself⟩ := h.self _ (hkeep.trans hlast)
  obtain ⟨hop, -, hjz, -⟩ := patch_eq hj
  exact tests_jz (hcode.trans hself) hop (hjz rfl).1 (hjz rfl).2

/-- A conditional jump that was emitted with its first target and patched with the second tests for
both. -/
theorem Patched.tests
    (hv : Pushed f u v
      (.ternary .cjmp (.register .cx) (.label (some ((codeOf f u).size + 1))) (.label none))) :
    Tests code (codeOf f u).size ((codeOf f u).size + 1) target := by
  obtain ⟨debug, hlast⟩ := hv.last
  obtain ⟨j, hj, hself⟩ := h.self _ (hkeep.trans hlast)
  obtain ⟨hop, -, -, hcjmp⟩ := patch_eq hj
  obtain ⟨hfirst, hsecond, hthird⟩ := hcjmp rfl
  exact tests_cjmp (hcode.trans hself) hop hfirst hsecond hthird

end

section
variable {st : LowerStatement} {condition : Node} {body otherwise : List Node} {span : Span}
  {f : Frame} {s u t : State} {x : Exits}

/-- The states that a conditional without an alternative goes through. -/
theorem lowerIf_ok (hlu : Live f u) (hrun : lowerIf st body span f u = .ok x t)
    (hbody : ∀ v w y, Live f v → lowerAll st body f v = .ok y w → Lowered f v w y body) :
    ∃ v w, Pushed f u v (.binary .jz (.register .cx) (.label none)) ∧ Lowered f v w x body ∧
      Patched f w t (codeOf f u).size (codeOf f w).size := by
  obtain ⟨p, v, hjz, hrun⟩ := bind_eq_ok.mp hrun
  obtain ⟨y, w, hall, hrun⟩ := bind_eq_ok.mp hrun
  obtain ⟨q, w', hpc, hrun⟩ := bind_eq_ok.mp hrun
  obtain ⟨⟨⟩, t', hpatch, hpure⟩ := bind_eq_ok.mp hrun
  cases hpure
  obtain ⟨rfl, hv⟩ := emitStepping_ok hjz hlu
  have hw := hbody v w x hv.live hall
  have hlw : Live f w := hv.live.evolves hw.evolves
  obtain ⟨rfl, rfl⟩ := pc_ok hpc hlw
  exact ⟨v, w', hv, hw, patch_ok hpatch hlw⟩

theorem lowered_if (hl : Live f s) (hcond : lowerCondition condition span f s = .ok () u)
    (hrun : lowerIf st body span f u = .ok x t)
    (hbody : ∀ v w y, Live f v → lowerAll st body f v = .ok y w → Lowered f v w y body) :
    Lowered f s t x [.branch condition body [] span] := by
  have hu := grown_of_evolving (Evolving.lowerCondition condition span) hcond hl
  obtain ⟨v, w, hv, hw, ht⟩ := lowerIf_ok hu.live hrun hbody
  have hsizes := And.intro hu.keeps.size_le (And.intro hv.size (And.intro hw.keeps.size_le ht.size))
  have hpend : ∀ pc ∈ x.breaks ++ x.continues, (codeOf f v).size ≤ pc :=
    fun pc hpc => (hw.pending.lt hpc).1
  have hkeep := hv.keeps.trans hw.keeps
  refine ⟨hu.evolves.trans (hv.evolves.trans (hw.evolves.trans ht.evolves)),
    ht.extends (hu.keeps.trans hkeep) hsizes.1, ?_, hw.closed, ?_⟩
  · refine hw.pending.congr (by omega) fun pc hpc => ht.other pc ?_
    have := hpend pc hpc
    omega
  obtain ⟨fb, hfb, hsim⟩ := hw.follows
  refine ⟨.branch condition ⟨(codeOf f s).size, (codeOf f u).size⟩ fb .skip span,
    by simp only [source, hfb], fun code brk cont hwired => ?_⟩
  obtain ⟨hemit, hsimb⟩ := hsim code brk cont <| by
    refine hwired.part (fun _ => id) (fun _ => id) fun pc hge hlt => ?_
    exact ⟨by omega, by omega, ht.other pc (by omega), id, id⟩
  have hbefore : ∀ pc, (codeOf f s).size ≤ pc → pc ≤ (codeOf f u).size →
      code[pc]? = (codeOf f t)[pc]? := by
    intro pc hge hle
    refine hwired.outside hge (by omega) fun hmem => ?_
    have := hpend pc hmem
    omega
  obtain ⟨htest, hstraight⟩ := emittedBy_condition t code hcond hu
    (hv.evolves.trans (hw.evolves.trans ht.evolves)) fun pc hge hlt => by
      rw [hbefore pc hge (by omega), ht.other pc (by omega), hkeep.same pc hlt]
  refine ⟨⟨htest, hemit.mono (f := f.site) (hu.evolves.trans hv.evolves) ht.evolves, trivial⟩, ?_⟩
  have htests := ht.testsZero (hw.keeps.same _ (by omega)) (hbefore _ (by omega) (Nat.le_refl _)) hv
  rw [hv.size] at hsimb
  rw [ht.size]
  exact simulates_branch hstraight htests hsimb (simulates_skip _)

/-- The states that a conditional with an alternative goes through. -/
theorem lowerIfElse_ok (hlu : Live f u) (hrun : lowerIfElse st body otherwise span f u = .ok x t)
    (hbody : ∀ v w y, Live f v → lowerAll st body f v = .ok y w → Lowered f v w y body)
    (hotherwise : ∀ v w y, Live f v → lowerAll st otherwise f v = .ok y w →
      Lowered f v w y otherwise) :
    ∃ v w a b c y z, x = y.append z ∧
      Pushed f u v
        (.ternary .cjmp (.register .cx) (.label (some ((codeOf f u).size + 1))) (.label none)) ∧
      Lowered f v w y body ∧ Pushed f w a (.unary .jmp (.label none)) ∧
      Patched f a b (codeOf f u).size (codeOf f a).size ∧ Lowered f b c z otherwise ∧
      Patched f c t (codeOf f w).size (codeOf f c).size := by
  obtain ⟨p, u', hpc, hrun⟩ := bind_eq_ok.mp hrun
  obtain ⟨rfl, rfl⟩ := pc_ok hpc hlu
  obtain ⟨p, v, hcjmp, hrun⟩ := bind_eq_ok.mp hrun
  obtain ⟨y, w, hall, hrun⟩ := bind_eq_ok.mp hrun
  obtain ⟨q, a, hjmp, hrun⟩ := bind_eq_ok.mp hrun
  obtain ⟨_, a', hpc, hrun⟩ := bind_eq_ok.mp hrun
  obtain ⟨⟨⟩, b, hpatch, hrun⟩ := bind_eq_ok.mp hrun
  obtain ⟨z, c, hall', hrun⟩ := bind_eq_ok.mp hrun
  obtain ⟨_, c', hpc', hrun⟩ := bind_eq_ok.mp hrun
  obtain ⟨⟨⟩, t', hpatch', hpure⟩ := bind_eq_ok.mp hrun
  cases hpure
  obtain ⟨rfl, hv⟩ := emitCjmp_ok hcjmp hlu
  have hw := hbody v w y hv.live hall
  have hlw : Live f w := hv.live.evolves hw.evolves
  obtain ⟨rfl, ha⟩ := emitStepping_ok hjmp hlw
  obtain ⟨rfl, rfl⟩ := pc_ok hpc ha.live
  have hb := patch_ok hpatch ha.live
  have hc := hotherwise b c z hb.live hall'
  have hlc : Live f c := hb.live.evolves hc.evolves
  obtain ⟨rfl, rfl⟩ := pc_ok hpc' hlc
  exact ⟨v, w, a', b, c', y, z, rfl, hv, hw, ha, hb, hc, patch_ok hpatch' hlc⟩

section
variable {v w a b c : State} {y z : Exits}
  (hv : Pushed f u v
    (.ternary .cjmp (.register .cx) (.label (some ((codeOf f u).size + 1))) (.label none)))
  (hw : Lowered f v w y body) (ha : Pushed f w a (.unary .jmp (.label none)))
  (hb : Patched f a b (codeOf f u).size (codeOf f a).size) (hc : Lowered f b c z otherwise)
  (ht : Patched f c t (codeOf f w).size (codeOf f c).size)
include hv hw ha hb hc ht

/-- The first branch ends where the jump over the second one stands, and the second one behind it. -/
theorem ifElse_sizes : (codeOf f v).size = (codeOf f u).size + 1 ∧
    (codeOf f v).size ≤ (codeOf f w).size ∧ (codeOf f a).size = (codeOf f w).size + 1 ∧
    (codeOf f b).size = (codeOf f a).size ∧ (codeOf f b).size ≤ (codeOf f c).size ∧
    (codeOf f t).size = (codeOf f c).size :=
  ⟨hv.size, hw.keeps.size_le, ha.size, hb.size, hc.keeps.size_le, ht.size⟩

/-- In the first branch the code stays as it was emitted. -/
theorem ifElse_first {pc : Nat} (hlt : pc < (codeOf f w).size) (hne : pc ≠ (codeOf f u).size) :
    (codeOf f t)[pc]? = (codeOf f w)[pc]? := by
  have hsizes := ifElse_sizes hv hw ha hb hc ht
  rw [ht.other pc (by omega), hc.keeps.same pc (by omega), hb.other pc hne, ha.keeps.same pc hlt]

theorem ifElse_before {pc : Nat} (hlt : pc < (codeOf f u).size) :
    (codeOf f t)[pc]? = (codeOf f u)[pc]? := by
  have hsizes := ifElse_sizes hv hw ha hb hc ht
  rw [ifElse_first hv hw ha hb hc ht (by omega) (by omega), hw.keeps.same pc (by omega),
    hv.keeps.same pc hlt]

/-- The jumps that wait in either branch are not the ones that were patched. -/
theorem ifElse_pending : Pending (y.append z) (codeOf f v).size (codeOf f t) := by
  have hsizes := ifElse_sizes hv hw ha hb hc ht
  have hyb : Pending y (codeOf f v).size (codeOf f b) := by
    refine hw.pending.congr (Nat.le_refl _) fun pc hpc => ?_
    have := hw.pending.lt hpc
    rw [hb.other pc (by omega), ha.keeps.same pc this.2]
  refine (hyb.append hc.pending (by omega) hc.keeps).congr (Nat.le_refl _) fun pc hpc => ?_
  refine ht.other pc ?_
  rcases mem_exits_append.mp hpc with hpc | hpc
  · have := hw.pending.lt hpc
    omega
  · have := hc.pending.lt hpc
    omega

/-- The branch and the jump over the second branch are not among the waiting jumps. -/
theorem ifElse_outside {code : Array Instruction} {first brk cont pc : Nat}
    (hwired : Wired code (codeOf f t) first (codeOf f t).size (y.append z) brk cont)
    (hge : first ≤ pc) (hpc : pc < (codeOf f v).size ∨ pc = (codeOf f w).size) :
    code[pc]? = (codeOf f t)[pc]? := by
  have hsizes := ifElse_sizes hv hw ha hb hc ht
  refine hwired.outside hge (by omega) fun hmem => ?_
  rcases mem_exits_append.mp hmem with hmem | hmem
  · have := hw.pending.lt hmem
    omega
  · have := hc.pending.lt hmem
    omega

/-- Code that is wired on a conditional is wired on both branches. -/
theorem ifElse_wired {code : Array Instruction} {first brk cont : Nat}
    (hwired : Wired code (codeOf f t) first (codeOf f t).size (y.append z) brk cont)
    (hfirst : first ≤ (codeOf f u).size) :
    Wired code (codeOf f w) (codeOf f v).size (codeOf f w).size y brk cont ∧
      Wired code (codeOf f c) (codeOf f b).size (codeOf f c).size z brk cont := by
  have hsizes := ifElse_sizes hv hw ha hb hc ht
  constructor
  · refine hwired.left (by omega) (by omega) (fun pc hge hlt => ?_) fun pc hpc => ?_
    · exact ifElse_first hv hw ha hb hc ht hlt (by omega)
    · have := hc.pending.lt hpc
      omega
  · refine hwired.right (by omega) (by omega) (fun pc hge _ => ht.other pc (by omega)) fun pc hpc => ?_
    have := hw.pending.lt hpc
    omega

/-- The conditional jump chooses between the branches, and the first one jumps over the second. -/
theorem ifElse_jumps {code : Array Instruction} {first brk cont : Nat}
    (hwired : Wired code (codeOf f t) first (codeOf f t).size (y.append z) brk cont)
    (hfirst : first ≤ (codeOf f u).size) :
    Tests code (codeOf f u).size ((codeOf f u).size + 1) (codeOf f a).size ∧
      JumpsTo code (codeOf f w).size (codeOf f c).size := by
  have hsizes := ifElse_sizes hv hw ha hb hc ht
  constructor
  · refine hb.tests ?_ ?_ hv
    · rw [ha.keeps.same _ (by omega), hw.keeps.same _ (by omega)]
    · rw [ifElse_outside hv hw ha hb hc ht hwired (by omega) (by omega), ht.other _ (by omega), hc.keeps.same _ (by omega)]
  · refine ht.jumpsTo ?_ (ifElse_outside hv hw ha hb hc ht hwired (by omega) (by omega)) ha
    rw [hc.keeps.same _ (by omega), hb.other _ (by omega)]

end

theorem lowered_ifElse (hl : Live f s) (hcond : lowerCondition condition span f s = .ok () u)
    (hrun : lowerIfElse st body otherwise span f u = .ok x t)
    (hbody : ∀ v w y, Live f v → lowerAll st body f v = .ok y w → Lowered f v w y body)
    (hotherwise : ∀ v w y, Live f v → lowerAll st otherwise f v = .ok y w →
      Lowered f v w y otherwise) :
    Lowered f s t x [.branch condition body otherwise span] := by
  have hu := grown_of_evolving (Evolving.lowerCondition condition span) hcond hl
  obtain ⟨v, w, a, b, c, y, z, rfl, hv, hw, ha, hb, hc, ht⟩ :=
    lowerIfElse_ok hu.live hrun hbody hotherwise
  have hsize := hu.keeps.size_le
  have hsizes := ifElse_sizes hv hw ha hb hc ht
  have hafter := ha.evolves.trans (hb.evolves.trans (hc.evolves.trans ht.evolves))
  have hbefore := hu.evolves.trans hv.evolves
  refine ⟨hbefore.trans (hw.evolves.trans hafter), ⟨by omega, fun pc hlt => ?_⟩, ?_, fun hloop => ?_, ?_⟩
  · rw [ifElse_before hv hw ha hb hc ht (by omega), hu.keeps.same pc hlt]
  · exact (ifElse_pending hv hw ha hb hc ht).congr (by omega) fun _ _ => rfl
  · rw [hw.closed hloop, hc.closed hloop]
    rfl
  obtain ⟨fb, hfb, hsimb⟩ := hw.follows
  obtain ⟨fo, hfo, hsimo⟩ := hc.follows
  refine ⟨.branch condition ⟨(codeOf f s).size, (codeOf f u).size⟩ fb fo span,
    by simp only [source, hfb, hfo], fun code brk cont hwired => ?_⟩
  obtain ⟨hwb, hwo⟩ := ifElse_wired hv hw ha hb hc ht hwired hsize
  obtain ⟨heb, hsb⟩ := hsimb code brk cont hwb
  obtain ⟨heo, hso⟩ := hsimo code brk cont hwo
  obtain ⟨htests, hskip⟩ := ifElse_jumps hv hw ha hb hc ht hwired hsize
  obtain ⟨htest, hstraight⟩ := emittedBy_condition t code hcond hu
    (hv.evolves.trans (hw.evolves.trans hafter)) fun pc hge hlt => by
      rw [ifElse_outside hv hw ha hb hc ht hwired hge (by omega), ifElse_before hv hw ha hb hc ht hlt]
  refine ⟨⟨htest, heb.mono (f := f.site) hbefore hafter, heo.mono (f := f.site) ?_ ht.evolves⟩, ?_⟩
  · exact hbefore.trans (hw.evolves.trans (ha.evolves.trans hb.evolves))
  · rw [hv.size] at hsb
    rw [hb.size] at hso
    rw [ht.size]
    exact simulates_branch hstraight htests (hsb.jump hskip.steps) hso

/-- The states that a loop goes through. -/
theorem lowerWhile_ok (hl : Live f s) (hrun : lowerWhile st condition body span f s = .ok () t)
    (hbody : ∀ v w y, Live f v → lowerAll st body { f with inLoop := true } v = .ok y w →
      Lowered { f with inLoop := true } v w y body) :
    ∃ u v w a b c y, lowerCondition condition span f s = .ok () u ∧ Grown f s u ∧
      Pushed f u v
        (.ternary .cjmp (.register .cx) (.label (some ((codeOf f u).size + 1))) (.label none)) ∧
      Lowered { f with inLoop := true } v w y body ∧
      PatchedAll f w a y.continues (codeOf f s).size ∧
      Pushed f a b (.unary .jmp (.label (some (codeOf f s).size))) ∧
      Patched f b c (codeOf f u).size (codeOf f b).size ∧
      PatchedAll f c t y.breaks (codeOf f b).size := by
  obtain ⟨start, s', hpc, hrun⟩ := bind_eq_ok.mp hrun
  obtain ⟨rfl, rfl⟩ := pc_ok hpc hl
  obtain ⟨⟨⟩, u, hcond, hrun⟩ := bind_eq_ok.mp hrun
  have hu := grown_of_evolving (Evolving.lowerCondition condition span) hcond hl
  obtain ⟨p, u', hpc, hrun⟩ := bind_eq_ok.mp hrun
  obtain ⟨rfl, rfl⟩ := pc_ok hpc hu.live
  obtain ⟨p, v, hcjmp, hrun⟩ := bind_eq_ok.mp hrun
  obtain ⟨rfl, hv⟩ := emitCjmp_ok hcjmp hu.live
  obtain ⟨y, w, hall, hrun⟩ := bind_eq_ok.mp hrun
  have hw := hbody v w y hv.live hall
  have hlw : Live f w := hv.live.evolves hw.evolves
  have hlt : ∀ pc ∈ y.breaks ++ y.continues, (codeOf f v).size ≤ pc ∧ pc < (codeOf f w).size :=
    fun pc hpc => hw.pending.lt hpc
  obtain ⟨hnb, hnc, hdisjoint⟩ := List.nodup_append.mp hw.pending.nodup
  obtain ⟨⟨⟩, a, hpatch, hrun⟩ := bind_eq_ok.mp hrun
  have ha := patchAll_ok hpatch hlw hnc fun pc hpc =>
    (hw.pending.jump pc (List.mem_append_right _ hpc)).2
  obtain ⟨q, b, hjmp, hrun⟩ := bind_eq_ok.mp hrun
  obtain ⟨-, hb⟩ := emitStepping_ok hjmp ha.live
  obtain ⟨e, b', hpc, hrun⟩ := bind_eq_ok.mp hrun
  obtain ⟨rfl, rfl⟩ := pc_ok hpc hb.live
  obtain ⟨⟨⟩, c, hpatch', hrun⟩ := bind_eq_ok.mp hrun
  have hc := patch_ok hpatch' hb.live
  refine ⟨u', v, w, a, b', c, y, hcond, hu, hv, hw, ha, hb, hc, patchAll_ok hrun hc.live hnb ?_⟩
  intro pc hpc
  obtain ⟨i, hi, hop⟩ := (hw.pending.jump pc (List.mem_append_left _ hpc)).2
  have hrange := hlt pc (List.mem_append_left _ hpc)
  have hnot : pc ∉ y.continues := fun hmem => hdisjoint pc hpc pc hmem rfl
  have hsize := hv.size
  have hsa := ha.size
  refine ⟨i, ?_, hop⟩
  rw [hc.other pc (by omega), hb.keeps.same pc (by omega), ha.other pc hnot]
  exact hi

/-- Only jumps of the body wait for the ends of the loop. -/
theorem Lowered.outside {v w : State} {y : Exits}
    (h : Lowered { f with inLoop := true } v w y body) (pc : Nat)
    (hpc : pc < (codeOf f v).size ∨ (codeOf f w).size ≤ pc) : pc ∉ y.breaks ∧ pc ∉ y.continues := by
  rw [← not_or, ← List.mem_append]
  intro hmem
  have hrange : (codeOf f v).size ≤ pc ∧ pc < (codeOf f w).size := h.pending.lt hmem
  omega

section
variable {v w a b c : State} {y : Exits} (hu : Extends (codeOf f s) (codeOf f u))
  (hv : Pushed f u v
    (.ternary .cjmp (.register .cx) (.label (some ((codeOf f u).size + 1))) (.label none)))
  (hw : Lowered { f with inLoop := true } v w y body)
  (ha : PatchedAll f w a y.continues (codeOf f s).size)
  (hb : Pushed f a b (.unary .jmp (.label (some (codeOf f s).size))))
  (hc : Patched f b c (codeOf f u).size (codeOf f b).size)
  (ht : PatchedAll f c t y.breaks (codeOf f b).size)
include hu hv hw ha hb hc ht

/-- The back jump stands behind the body, and the loop ends behind it. -/
theorem loop_sizes : (codeOf f s).size ≤ (codeOf f u).size ∧
    (codeOf f v).size = (codeOf f u).size + 1 ∧ (codeOf f v).size ≤ (codeOf f w).size ∧
    (codeOf f a).size = (codeOf f w).size ∧ (codeOf f b).size = (codeOf f a).size + 1 ∧
    (codeOf f t).size = (codeOf f b).size := by
  have hkeep : Extends (codeOf f v) (codeOf f w) := hw.keeps
  exact ⟨hu.size_le, hv.size, hkeep.size_le, ha.size, hb.size, ht.size.trans hc.size⟩

/-- After the patching of the `continue`s only the branch and the `break`s change. -/
theorem loop_patched {pc : Nat} (hlt : pc < (codeOf f w).size) (hne : pc ≠ (codeOf f u).size)
    (hbreaks : pc ∉ y.breaks) : (codeOf f t)[pc]? = (codeOf f a)[pc]? := by
  have hsizes := loop_sizes hu hv hw ha hb hc ht
  rw [ht.other pc hbreaks, hc.other pc hne, hb.keeps.same pc (by omega)]

theorem loop_before {pc : Nat} (hlt : pc < (codeOf f u).size) :
    (codeOf f t)[pc]? = (codeOf f u)[pc]? := by
  have hsizes := loop_sizes hu hv hw ha hb hc ht
  have hkeep : Extends (codeOf f v) (codeOf f w) := hw.keeps
  obtain ⟨hbreaks, hcontinues⟩ := hw.outside (f := f) pc (by omega)
  rw [loop_patched hu hv hw ha hb hc ht (by omega) (by omega) hbreaks, ha.other pc hcontinues,
    hkeep.same pc (by omega), hv.keeps.same pc hlt]

section
variable {code : Array Instruction} (hcode : ∀ pc, (codeOf f s).size ≤ pc →
    pc < (codeOf f t).size → code[pc]? = (codeOf f t)[pc]?)
include hcode

/-- In the code of a loop, the exits of the body go behind the loop and to its condition. -/
theorem loop_wired :
    Wired code (codeOf f w) (codeOf f v).size (codeOf f w).size y (codeOf f b).size
      (codeOf f s).size := by
  have hsizes := loop_sizes hu hv hw ha hb hc ht
  have hrange : ∀ pc ∈ y.breaks ++ y.continues, (codeOf f v).size ≤ pc ∧ pc < (codeOf f w).size :=
    fun pc hpc => hw.pending.lt hpc
  refine ⟨fun pc hge hlt hbreaks hcontinues => ?_, fun pc hpc => ?_, fun pc hpc => ?_⟩
  · rw [hcode pc (by omega) (by omega), loop_patched hu hv hw ha hb hc ht hlt (by omega) hbreaks, ha.other pc hcontinues]
  · have hlt := hrange pc (List.mem_append_left _ hpc)
    exact (ht.self pc hpc).congr (hcode pc (by omega) (by omega))
  · have hlt := hrange pc (List.mem_append_right _ hpc)
    have hdisjoint := (List.nodup_append.mp hw.pending.nodup).2.2
    refine (ha.self pc hpc).congr ?_
    rw [hcode pc (by omega) (by omega)]
    exact loop_patched hu hv hw ha hb hc ht hlt.2 (by omega) fun hmem => hdisjoint pc hmem pc hpc rfl

/-- The conditional jump leaves the loop, and the jump behind the body goes back. -/
theorem loop_jumps : Tests code (codeOf f u).size ((codeOf f u).size + 1) (codeOf f b).size ∧
    JumpsTo code (codeOf f a).size (codeOf f s).size := by
  have hsizes := loop_sizes hu hv hw ha hb hc ht
  have hkeep : Extends (codeOf f v) (codeOf f w) := hw.keeps
  constructor
  · obtain ⟨hbreaks, hcontinues⟩ := hw.outside (f := f) (codeOf f u).size (by omega)
    refine hc.tests ?_ ?_ hv
    · rw [hb.keeps.same _ (by omega), ha.other _ hcontinues, hkeep.same _ (by omega)]
    · rw [hcode _ (by omega) (by omega), ht.other _ hbreaks]
  · obtain ⟨hbreaks, -⟩ := hw.outside (f := f) (codeOf f a).size (by omega)
    obtain ⟨debug, hlast⟩ := hb.last
    have hjump : JumpsTo (codeOf f b) (codeOf f a).size (codeOf f s).size := ⟨_, hlast, rfl, rfl⟩
    refine hjump.congr ?_
    rw [hcode _ (by omega) (by omega), ht.other _ hbreaks, hc.other _ (by omega)]

end

end

theorem lowered_loop (hl : Live f s) (hrun : lowerWhile st condition body span f s = .ok () t)
    (hbody : ∀ v w y, Live f v → lowerAll st body { f with inLoop := true } v = .ok y w →
      Lowered { f with inLoop := true } v w y body) :
    Lowered f s t .none [.loop condition body span] := by
  obtain ⟨u, v, w, a, b, c, y, hcond, hu, hv, hw, ha, hb, hc, ht⟩ := lowerWhile_ok hl hrun hbody
  have hsizes := loop_sizes hu.keeps hv hw ha hb hc ht
  have hevw : Evolves (fun _ => True) f.site v.session w.session := hw.evolves
  have hafter := ha.evolves.trans (hb.evolves.trans (hc.evolves.trans ht.evolves))
  have hbefore := hu.evolves.trans hv.evolves
  refine ⟨hbefore.trans (hevw.trans hafter), ⟨by omega, fun pc hlt => ?_⟩, pending_none _ _,
    fun _ => rfl, ?_⟩
  · rw [loop_before hu.keeps hv hw ha hb hc ht (by omega), hu.keeps.same pc hlt]
  obtain ⟨fb, hfb, hsim⟩ := hw.follows
  refine ⟨.loop condition ⟨(codeOf f s).size, (codeOf f u).size⟩ fb span,
    by simp only [source, hfb], fun code brk cont hwired => ?_⟩
  -- A loop leaves no jump waiting, so the code is the emitted one.
  have hsame : ∀ pc, (codeOf f s).size ≤ pc → pc < (codeOf f t).size →
      code[pc]? = (codeOf f t)[pc]? := fun pc hge hlt => hwired.outside hge hlt List.not_mem_nil
  obtain ⟨hemit, hsimb⟩ := hsim code _ _ (loop_wired hu.keeps hv hw ha hb hc ht hsame)
  obtain ⟨htest, hstraight⟩ := emittedBy_condition t code hcond hu
    (hv.evolves.trans (hevw.trans hafter)) fun pc hge hlt => by
      rw [hsame pc hge (by omega), loop_before hu.keeps hv hw ha hb hc ht hlt]
  refine ⟨⟨htest, Emitted.mono (f := f.site) hbefore hafter hemit⟩, ?_⟩
  obtain ⟨htests, hback⟩ := loop_jumps hu.keeps hv hw ha hb hc ht hsame
  have hsimb' : Simulates code fb ((codeOf f u).size + 1) (codeOf f a).size (codeOf f b).size
      (codeOf f s).size := by
    rw [← hv.size, ha.size]
    exact hsimb
  rw [ht.size, hc.size]
  exact simulates_loop hstraight htests (hsimb'.jump hback.steps)

end

/-! ## All statements -/

theorem statement_imperative {f : Frame} (hd : f.dialect = .imperative) (n : Node) (s : State) :
    statement n f s = imperativeStatement statement n f s := by
  rw [statement_eq]
  simp only [lowerStatement, run_bind, run_read, hd]

/-- Every statement of an imperative block is lowered faithfully. The induction is on the weight of
the statement. -/
theorem lowered_statement (n : Node) {f : Frame} {s t : State} {exits : Exits}
    (hd : f.dialect = .imperative) (hl : Live f s) (hrun : statement n f s = .ok exits t) :
    Lowered f s t exits [n] := by
  induction hk : n.weight using Nat.strongRecOn generalizing n f s t exits with
  | ind k ih =>
    subst hk
    have hlist : ∀ (nodes : List Node), Node.weights nodes < n.weight → ∀ (g : Frame) v w y,
        g.dialect = .imperative → Live g v → lowerAll statement nodes g v = .ok y w →
        Lowered g v w y nodes := by
      intro nodes hlt g v w y hg hlv hall
      refine lowered_all (fun m hm v w y hlv hm' => ?_) hlv hall
      have := Node.weight_le_weights hm
      exact ih m.weight (by omega) m hg hlv hm' rfl
    have hst := statement_imperative hd n s
    cases n with
    | assign target value span =>
      exact lowered_plain hl (Evolving.lowerAssignment target value) rfl hst hrun
    | ret value span => exact lowered_return hl hst hrun
    | branch condition body otherwise span =>
      simp only [Node.weight] at hlist
      rw [hst] at hrun
      obtain ⟨⟨⟩, u, hcond, hrun⟩ := bind_eq_ok.mp hrun
      have hb := fun v w y => hlist body (by omega) f v w y hd
      have ho := fun v w y => hlist otherwise (by omega) f v w y hd
      cases otherwise with
      | nil => exact lowered_if hl hcond hrun hb
      | cons m rest => exact lowered_ifElse hl hcond hrun hb ho
    | loop condition body span =>
      simp only [Node.weight] at hlist
      rw [hst] at hrun
      obtain ⟨⟨⟩, u, hloop, hpure⟩ := bind_eq_ok.mp hrun
      cases hpure
      exact lowered_loop hl hloop fun v w y hlv hall =>
        hlist body (by omega) { f with inLoop := true } v w y hd ⟨hlv.notWatching, hlv.inside⟩ hall
    | breakLoop span =>
      rw [hst] at hrun
      exact lowered_break hl hrun
    | continueLoop span =>
      rw [hst] at hrun
      exact lowered_continue hl hrun
    | varDecl v =>
      exact lowered_plain hl (Evolving.lowerVariable Evolving.statement_assign v) rfl hst hrun
    | block dialect body span =>
      exact lowered_plain hl (Evolving.lowerBlock Evolving.statement _ _ _) rfl hst hrun
    | function fn =>
      exact lowered_plain hl (Evolving.lowerFunction Evolving.statement fn false) rfl hst hrun
    | classDecl c =>
      rw [hst] at hrun
      simp only [imperativeStatement, run_halt, reduceCtorEq] at hrun
    | _ => exact lowered_plain hl (Evolving.lowerDiscarded _) rfl hst hrun

/-- Control flow is preserved: statements of an imperative block that are lowered to the end become
code whose runs are the runs of the source. Each fragment that a run goes through was emitted for
the piece of the source that it annotates, and a run that is done stands behind the last
instruction. -/
theorem lowerAll_halts_iff {nodes : List Node} {f : Frame} {s t : State} {exits : Exits}
    (hrun : lowerAll statement nodes f s = .ok exits t) (hd : f.dialect = .imperative)
    (hloop : f.inLoop = false) (hw : s.session.isWatching = false)
    (hb : (s.session.block? f.block).isSome) :
    ∃ x : Flow, x.source = nodes ∧ x.Emitted f.site s t (codeOf f t) ∧
      ∀ os trace e os', Halts (codeOf f t) ⟨(codeOf f s).size, os⟩ trace e os' ↔
        Runs x os trace e os' := by
  have hl : Live f s := by
    obtain ⟨b, hb⟩ := Option.isSome_iff_exists.mp hb
    exact ⟨hw, (Array.getElem?_eq_some_iff.mp hb).1⟩
  have hlow := lowered_all (fun n _ u v y hlu hn => lowered_statement n hd hlu hn) hl hrun
  obtain ⟨x, hx, hfollows⟩ := hlow.follows
  have hnone := hlow.closed hloop
  subst hnone
  have hwired : ∀ brk cont,
      Wired (codeOf f t) (codeOf f t) (codeOf f s).size (codeOf f t).size .none brk cont := by
    intro brk cont
    exact ⟨fun _ _ _ _ _ => rfl, fun _ h => absurd h List.not_mem_nil,
      fun _ h => absurd h List.not_mem_nil⟩
  have hsim := fun brk cont => (hfollows (codeOf f t) brk cont (hwired brk cont)).2
  -- A jump out of the list would end at any two places behind the code.
  have hstay : ∀ os trace e os', Runs x os trace e os' → e ≠ .broke ∧ e ≠ .continued := by
    intro os trace e os' h
    have h₁ := hsim ((codeOf f t).size + 1) ((codeOf f t).size + 1) h
    have h₂ := hsim ((codeOf f t).size + 2) ((codeOf f t).size + 2) h
    constructor
    · rintro rfl
      have := Steps.unique_outside h₁ h₂ (by omega) (by omega)
      omega
    · rintro rfl
      have := Steps.unique_outside h₁ h₂ (by omega) (by omega)
      omega
  have hhalts : ∀ os trace e os', Runs x os trace e os' →
      Halts (codeOf f t) ⟨(codeOf f s).size, os⟩ trace e os' := by
    intro os trace e os' h
    have hreach := hsim 0 0 h
    cases e with
    | done =>
      have hend := Steps.halts hreach (.done os')
      rwa [List.append_nil] at hend
    | broke => exact absurd rfl (hstay _ _ _ _ h).1
    | continued => exact absurd rfl (hstay _ _ _ _ h).2
    | left =>
      obtain ⟨pc, before, hsteps, hret, rfl⟩ := hreach
      exact hsteps.halts (.left os' hret)
    | starved =>
      obtain ⟨rfl, pc, hsteps, hcond⟩ := hreach
      have hend := hsteps.halts (.starved hcond)
      rwa [List.append_nil] at hend
  refine ⟨x, hx, (hfollows _ 0 0 (hwired 0 0)).1, fun os trace e os' => ⟨fun h => ?_, hhalts _ _ _ _⟩⟩
  obtain ⟨trace', e', os'', hx'⟩ := Runs.exists x os
  obtain ⟨rfl, rfl, rfl⟩ := h.deterministic (hhalts _ _ _ _ hx')
  exact hx'

/-- A loop that ends at once or goes on, and a return behind it. -/
def sampleLoop : List Node :=
  [.loop (.literal .bool "true" .nil)
    [.branch (.literal .bool "false" .nil) [.breakLoop .nil] [.continueLoop .nil] .nil] .nil,
   .ret none .nil]

/-- The code of `sampleLoop` in a session with one empty block runs as the source does. -/
theorem sampleLoop_halts_iff :
    let f : Frame := { block := 0, scope := .global, dialect := .imperative }
    let s : State := { session := (Session.new {}).addBlock .global .imperative none }
    ∃ exits t, lowerAll statement sampleLoop f s = .ok exits t ∧
      ∃ x : Flow, x.source = sampleLoop ∧ x.Emitted f.site s t (codeOf f t) ∧
        ∀ os trace e os', Halts (codeOf f t) ⟨(codeOf f s).size, os⟩ trace e os' ↔
          Runs x os trace e os' := by
  intro f s
  have hok : (match lowerAll statement sampleLoop f s with
      | .ok _ _ => true
      | .error _ _ => false) = true := by decide +kernel
  cases hrun : lowerAll statement sampleLoop f s with
  | error e t => simp only [hrun, Bool.false_eq_true] at hok
  | ok exits t =>
    exact ⟨exits, t, rfl, lowerAll_halts_iff hrun rfl rfl (by decide +kernel) (by decide +kernel)⟩
end Diglot.Flow
