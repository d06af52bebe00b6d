import Diglot.Proofs.Debug.Statement
import Diglot.Proofs.Requests

/-! # The debug switches do not change the program

Two sessions whose options differ only in the switches that `Options.erase` leaves out, and that get the
same calls, return the same and hold the same tables, graphs and diagnostics. Their instructions differ
at most in the debug records (`Session.serveAll_erase`).
-/

set_option autoImplicit false

namespace Diglot

open Lowering

namespace Session

variable {s t : Session}

theorem erase_erase (s : Session) : s.erase.erase = s.erase := by
  have hblock : Block.erase ∘ Block.erase = Block.erase := by
    funext b
    simp [Block.erase, Instruction.erase, Function.comp_def]
  unfold erase
  simp only [Array.map_map, hblock]
  rfl

/-- Sessions that are the same but for what is left out, and the same reply. -/
def SameOutcome {α : Type} (a b : α × Session) : Prop := a.1 = b.1 ∧ a.2.erase = b.2.erase

theorem lower_erase {α : Type} {m : Lower α} (hm : Blind m) (f : Frame) (h : s.erase = t.erase) :
    SameOutcome (s.lower f m) (t.lower f m) := by
  have hrun := hm f { session := s } { session := t }
    (congrArg (fun u : Session => ({ session := u } : State)) h)
  rw [lower_eq, lower_eq]
  cases hs : m f { session := s } <;> cases ht : m f { session := t } <;> rw [hs, ht] at hrun
  · obtain ⟨rfl, huv⟩ := EStateM.Result.ok.inj hrun
    exact ⟨rfl, congrArg State.session huv⟩
  · cases hrun
  · cases hrun
  · obtain ⟨rfl, huv⟩ := EStateM.Result.error.inj hrun
    exact ⟨rfl, congrArg State.session huv⟩

theorem isEmpty_blocks_erase (s : Session) : s.erase.blocks.isEmpty = s.blocks.isEmpty := by
  simp only [Array.isEmpty, erase, Array.size_map]

theorem size_blocks_erase (s : Session) : s.erase.blocks.size = s.blocks.size := Array.size_map

theorem importSymbol_erase (s : Session) (name : String) (type : Ty) (library : String) :
    SameOutcome (s.erase.importSymbol name type library) (s.importSymbol name type library) := by
  have hstart : (if s.erase.blocks.isEmpty then s.erase.addBlock .global .associative none
        else s.erase) =
      (if s.blocks.isEmpty then s.addBlock .global .associative none else s).erase := by
    rw [isEmpty_blocks_erase]
    split
    · exact (s.erase_addBlock _ _ _).symm
    · rfl
  unfold importSymbol
  rw [hstart]
  generalize (if s.blocks.isEmpty then s.addBlock .global .associative none else s) = u
  let x : Symbol := { name, type, library := some library, offset := u.counters.globals }
  have happend (w : Session) :
      (w.modifyBlock 0 fun b => { b with symbols := b.symbols.append x }).erase =
        w.erase.modifyBlock 0 fun b => { b with symbols := b.symbols.append x } := by
    refine w.erase_modifyBlock ?_ 0
    exact fun _ => rfl
  refine ⟨?_, ?_⟩
  · change ((u.erase.block? 0).map fun b => b.symbols.size).getD 0 =
      ((u.block? 0).map fun b => b.symbols.size).getD 0
    rw [block?_erase]
    cases u.block? 0 <;> rfl
  · refine (happend _).trans (Eq.trans ?_ (happend _).symm)
    exact congrArg (fun w : Session => ({ w with
      counters := { w.counters with globals := w.counters.globals + x.size } } : Session).modifyBlock 0
        fun b => { b with symbols := b.symbols.append x }) u.erase_erase

theorem openUnit_erase (s : Session) (dialect : Dialect) :
    SameOutcome (s.erase.openUnit dialect) (s.openUnit dialect) := by
  unfold openUnit
  rw [isEmpty_blocks_erase, size_blocks_erase]
  change SameOutcome (if s.counters.units = 0 then _ else _) _
  split
  · split
    · exact ⟨rfl, by rw [← erase_addBlock, erase_erase]⟩
    · have hset := s.erase_modifyBlock (g := fun b => { b with dialect })
        (k := fun b => { b with dialect }) (fun _ => rfl) 0
      exact ⟨rfl, by rw [← hset, erase_erase]⟩
  · exact ⟨rfl, by rw [← erase_addBlock, erase_erase]⟩

theorem compile_erase (s : Session) (unit : List Node) (dialect : Dialect) :
    SameOutcome (s.erase.compile unit dialect) (s.compile unit dialect) := by
  obtain ⟨hblock, hsession⟩ := ({ s with isWatching := false } : Session).openUnit_erase dialect
  have hstart : (s.erase.unitStart dialect).2.erase = (s.unitStart dialect).2.erase :=
    congrArg (fun u : Session =>
      { u with counters := { u.counters with units := u.counters.units + 1 } }) hsession
  have hsame : (s.erase.unitStart dialect).1 = (s.unitStart dialect).1 := hblock
  have hcompile (u : Session) : u.compile unit dialect =
      (u.unitStart dialect).2.lower
        { block := (u.unitStart dialect).1, scope := .global, dialect } (do
          lowerUnit statement (u.unitStart dialect).1 .global dialect unit []
          return (u.unitStart dialect).1) := rfl
  rw [hcompile, hcompile, hsame]
  exact lower_erase (.bind (.lowerUnit .statement _ _ _ _ _) fun _ => .pure _) _ hstart

theorem watchExpression_erase (s : Session) (id : Nat) (node : Node) :
    SameOutcome (s.erase.watchExpression id node) (s.watchExpression id node) := by
  unfold watchExpression
  rw [block?_erase]
  cases s.block? id with
  | none => exact ⟨rfl, s.erase_erase⟩
  | some b =>
    have hstart : ({ s.erase with isWatching := true } : Session).erase =
        ({ s with isWatching := true } : Session).erase :=
      congrArg (fun u : Session => { u with isWatching := true }) s.erase_erase
    obtain ⟨hresult, hsession⟩ := lower_erase (Mild.lowerWatch node).blind
      { block := id, scope := s.scopeOf b, dialect := b.dialect } hstart
    exact ⟨hresult, congrArg (fun u : Session => { u with isWatching := false }) hsession⟩

theorem serve_erase (s : Session) (request : Request) :
    SameOutcome (s.erase.serve request) (s.serve request) := by
  cases request with
  | setFile file =>
    exact ⟨rfl, congrArg (fun u : Session => { u with file := some file }) s.erase_erase⟩
  | setParsingModule on =>
    exact ⟨rfl, congrArg (fun u : Session => { u with isParsingModule := on }) s.erase_erase⟩
  | importSymbol name type library =>
    obtain ⟨hi, hs⟩ := s.importSymbol_erase name type library
    exact ⟨congrArg (fun i => Reply.registered (some i)) hi, hs⟩
  | addClass c =>
    have hclasses : s.erase.classes = s.classes := rfl
    simp only [serve, addClass, hclasses]
    cases s.classes.append? c with
    | none => exact ⟨rfl, s.erase_erase⟩
    | some classes => exact ⟨rfl, congrArg (fun u : Session => { u with classes }) s.erase_erase⟩
  | addMethod cls p =>
    have hclasses : s.erase.classes = s.classes := rfl
    simp only [serve, addMethod, hclasses]
    cases s.classes.get? cls with
    | none => exact ⟨rfl, s.erase_erase⟩
    | some c =>
      exact ⟨rfl, congrArg (fun u : Session =>
        { u with classes := u.classes.appendProcedure cls p }) s.erase_erase⟩
  | addProcedure p =>
    exact ⟨rfl, congrArg (fun u : Session =>
      { u with procedures := u.procedures.append p }) s.erase_erase⟩
  | compile unit dialect =>
    obtain ⟨hr, hs⟩ := s.compile_erase unit dialect
    exact ⟨congrArg Reply.compiled hr, hs⟩
  | watchExpression id node =>
    obtain ⟨hr, hs⟩ := s.watchExpression_erase id node
    exact ⟨congrArg Reply.compiled hr, hs⟩

theorem serveAll_alike (h : s.erase = t.erase) (requests : List Request) :
    SameOutcome (s.serveAll requests) (t.serveAll requests) := by
  induction requests generalizing s t with
  | nil => exact ⟨rfl, h⟩
  | cons request rest ih =>
    -- Both sessions answer like what they have in common.
    obtain ⟨hs, hs'⟩ := s.serve_erase request
    obtain ⟨ht, ht'⟩ := t.serve_erase request
    rw [h] at hs hs'
    obtain ⟨hrest, hsession⟩ := ih (hs'.symm.trans ht')
    refine ⟨?_, hsession⟩
    change (s.serve request).1 :: ((s.serve request).2.serveAll rest).1 =
      (t.serve request).1 :: ((t.serve request).2.serveAll rest).1
    rw [← hs, ht, hrest]

/-- The debug switches do not change the program: two sessions whose options differ only there, and
that get the same calls, return the same and hold the same, but for the debug records of instructions
and the log. -/
theorem serveAll_erase {o o' : Options} (h : o.erase = o'.erase) (requests : List Request) :
    ((new o).serveAll requests).1 = ((new o').serveAll requests).1 ∧
      ((new o).serveAll requests).2.erase = ((new o').serveAll requests).2.erase := by
  have hnew : (new o).erase = (new o').erase := by
    have hoptions : (new o).options.erase = (new o').options.erase := h
    unfold erase
    rw [hoptions]
    rfl
  exact serveAll_alike hnew requests

/-- An assignment that stands somewhere in the source text, and a watch expression behind it. -/
def sampleRequests : List Request :=
  [.compile [.assign (.identifier (.plain "x" ⟨1, 1, 1, 1⟩)) (.literal .int "1" ⟨1, 5, 1, 5⟩)
    ⟨1, 1, 1, 6⟩] .associative, .watchExpression 0 (.identifier (.plain "x" .nil))]

/-- With debug records the instructions of the assignment are not the same as without, but for these
records they are. -/
theorem sampleRequests_erase :
    let o : Options := { dumpByteCode := true, emitBreakpoints := true, ideDebugMode := true }
    ((new o).serveAll sampleRequests).2.blocks.any (fun b => b.code.any (·.debug.isSome)) = true ∧
      ((new {}).serveAll sampleRequests).2.blocks.any (fun b => b.code.any (·.debug.isSome)) = false ∧
      ((new o).serveAll sampleRequests).1 = ((new {}).serveAll sampleRequests).1 ∧
      ((new o).serveAll sampleRequests).2.erase = ((new {}).serveAll sampleRequests).2.erase := by
  intro o
  have h : o.erase = ({} : Options).erase := rfl
  exact ⟨by decide +kernel, by decide +kernel, serveAll_erase h sampleRequests⟩

end Session

end Diglot
