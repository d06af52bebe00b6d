import Diglot.Compile

/-! # Sequences of calls

A `Request` is a call on a session with its arguments, and a `Reply` what the call returns. A session
that goes on behind a call that halted, or ended in a defect, is what that call left of it.

What every call keeps holds behind any sequence of them (`Session.serveAll_induct`).

Where not every call is allowed, `s.Calls allows requests t` is the history of `t`: the requests that led to
it from `s`, each of them allowed in the session that it was made on. `s.Leads allows t` leaves the requests
open, and `s.Past allows` the new session that they were made on first. What holds of sessions with a
given past is shown along the calls, those left out that change nothing (`Session.Leads.induct`).
-/

set_option autoImplicit false

namespace Diglot

/-- A call on a session. -/
inductive Request where
  | setFile (file : String)
  | setParsingModule (on : Bool)
  | importSymbol (name : String) (type : Ty) (library : String)
  | addClass (c : Class)
  | addMethod (cls : Nat) (p : Procedure)
  | addProcedure (p : Procedure)
  | compile (unit : List Node) (dialect : Dialect)
  | watchExpression (block : Nat) (node : Node)

/-- The request compiles a unit. -/
def Request.isCompile : Request → Bool
  | .compile .. => true
  | _ => false

/-- The trees that the request compiles. -/
def Request.trees : Request → List Node
  | .compile unit _ => unit
  | .watchExpression _ node => [node]
  | _ => []

/-- What a call returns: nothing, the place of what was registered, or the outcome of compiling. -/
inductive Reply where
  | done
  | registered (index : Option Nat)
  | compiled (result : Except CompileError Nat)

namespace Session

/-- Answers a call. -/
def serve (s : Session) : Request → Reply × Session
  | .setFile file => (.done, s.setFile file)
  | .setParsingModule on => (.done, s.setParsingModule on)
  | .importSymbol name type library =>
    let (i, s) := s.importSymbol name type library
    (.registered (some i), s)
  | .addClass c =>
    let (i, s) := s.addClass c
    (.registered i, s)
  | .addMethod cls p =>
    let (i, s) := s.addMethod cls p
    (.registered i, s)
  | .addProcedure p =>
    let (i, s) := s.addProcedure p
    (.registered (some i), s)
  | .compile unit dialect =>
    let (result, s) := s.compile unit dialect
    (.compiled result, s)
  | .watchExpression block node =>
    let (result, s) := s.watchExpression block node
    (.compiled result, s)

/-- Answers calls one after the other. -/
def serveAll (s : Session) : List Request → List Reply × Session
  | [] => ([], s)
  | request :: rest =>
    let (reply, s) := s.serve request
    let (replies, s) := s.serveAll rest
    (reply :: replies, s)

theorem serveAll_concat (s : Session) (requests : List Request) (request : Request) :
    (s.serveAll (requests ++ [request])).2 = ((s.serveAll requests).2.serve request).2 := by
  induction requests generalizing s with
  | nil => rfl
  | cons first rest ih => exact ih (s.serve first).2

/-- What is written down call by call, where `enter` enters a request that is made on a session. -/
def tally {α : Type} (enter : Session → Request → α → α) (s : Session) : List Request → α → α
  | [], a => a
  | request :: rest, a => (s.serve request).2.tally enter rest (enter s request a)

theorem tally_concat {α : Type} (enter : Session → Request → α → α) (s : Session)
    (requests : List Request) (request : Request) (a : α) :
    s.tally enter (requests ++ [request]) a =
      enter (s.serveAll requests).2 request (s.tally enter requests a) := by
  induction requests generalizing s a with
  | nil => rfl
  | cons first rest ih => exact ih (s.serve first).2 (enter s first a)

/-- The requests lead from `s` to a session, each of them allowed in the one that it is made on. -/
inductive Calls (allows : Session → Request → Prop) (s : Session) : List Request → Session → Prop where
  | refl : Calls allows s [] s
  | call {requests : List Request} {t : Session} (request : Request) : Calls allows s requests t →
      allows t request → Calls allows s (requests ++ [request]) (t.serve request).2

/-- Allowed requests lead from `s` to `t`. -/
def Leads (allows : Session → Request → Prop) (s t : Session) : Prop :=
  ∃ requests, s.Calls allows requests t

/-- Allowed requests lead from a new session to `s`. -/
def Past (allows : Session → Request → Prop) (s : Session) : Prop :=
  ∃ options, (new options).Leads allows s

section

variable {allows also : Session → Request → Prop} {requests : List Request} {s t u : Session}

theorem Calls.eq_serveAll (h : s.Calls allows requests t) : t = (s.serveAll requests).2 := by
  induction h with
  | refl => rfl
  | call request _ _ ih => rw [serveAll_concat, ← ih]

theorem Calls.trans {more : List Request} (hst : s.Calls allows requests t)
    (htu : t.Calls allows more u) : s.Calls allows (requests ++ more) u := by
  induction htu with
  | refl => rwa [List.append_nil]
  | call request _ hallows ih =>
    rw [← List.append_assoc]
    exact ih.call request hallows

theorem Leads.refl (s : Session) : s.Leads allows s := ⟨[], .refl⟩

theorem Leads.call (h : s.Leads allows t) (request : Request) (hallows : allows t request) :
    s.Leads allows (t.serve request).2 := by
  obtain ⟨requests, hcalls⟩ := h
  exact ⟨requests ++ [request], hcalls.call request hallows⟩

/-- Requests that are allowed in all sessions that they can be made on are allowed in this history. -/
theorem Calls.mono (h : s.Calls allows requests t)
    (halso : ∀ u request, s.Leads allows u → allows u request → also u request) :
    s.Calls also requests t := by
  induction h with
  | refl => exact .refl
  | call request hcalls hallows ih => exact ih.call request (halso _ request ⟨_, hcalls⟩ hallows)

theorem Leads.trans (hst : s.Leads allows t) (htu : t.Leads allows u) : s.Leads allows u := by
  obtain ⟨requests, hcalls⟩ := hst
  obtain ⟨more, hmore⟩ := htu
  exact ⟨requests ++ more, hcalls.trans hmore⟩

theorem Past.new (options : Options) : (new options).Past allows := ⟨options, .refl _⟩

theorem Past.call (h : s.Past allows) (request : Request) (hallows : allows s request) :
    (s.serve request).2.Past allows := by
  obtain ⟨options, hleads⟩ := h
  exact ⟨options, hleads.call request hallows⟩

theorem Past.mono (h : s.Past allows)
    (halso : ∀ t request, t.Past allows → allows t request → also t request) : s.Past also := by
  obtain ⟨options, requests, hcalls⟩ := h
  exact ⟨options, requests, hcalls.mono fun t request ht => halso t request ⟨options, ht⟩⟩

end

/-- What the calls keep holds wherever they lead. A class whose name is taken, a procedure of a class that is
not there and an expression in a block that is not there leave the session as it is. -/
@[elab_as_elim]
theorem Leads.induct {allows : Session → Request → Prop} {s : Session}
    {motive : (t : Session) → s.Leads allows t → Prop}
    (refl : motive s (.refl s))
    (setFile : ∀ (t : Session) (file : String) {ht : s.Leads allows t} {hu},
      motive t ht → motive (t.setFile file) hu)
    (setParsingModule : ∀ (t : Session) (on : Bool) {ht : s.Leads allows t} {hu},
      motive t ht → motive (t.setParsingModule on) hu)
    (importSymbol : ∀ (t : Session) (name : String) (type : Ty) (library : String)
      (ht : s.Leads allows t) {hu}, motive t ht → motive (t.importSymbol name type library).2 hu)
    (addClass : ∀ (t : Session) (c : Class) (classes : ClassTable) {ht : s.Leads allows t} {hu},
      t.classes.append? c = some classes → allows t (.addClass c) → motive t ht →
        motive { t with classes } hu)
    (addMethod : ∀ (t : Session) (cls : Nat) (p : Procedure) {ht : s.Leads allows t} {hu},
      allows t (.addMethod cls p) → motive t ht →
        motive { t with classes := t.classes.appendProcedure cls p } hu)
    (addProcedure : ∀ (t : Session) (p : Procedure) {ht : s.Leads allows t} {hu},
      allows t (.addProcedure p) → motive t ht → motive (t.addProcedure p).2 hu)
    (compile : ∀ (t : Session) (unit : List Node) (dialect : Dialect) {hu},
      allows t (.compile unit dialect) → (ht : s.Leads allows t) → motive t ht →
        motive (t.compile unit dialect).2 hu)
    (watchExpression : ∀ (t : Session) (id : Nat) (b : Block) (node : Node) {hu},
      t.block? id = some b → allows t (.watchExpression id node) → (ht : s.Leads allows t) → motive t ht →
        motive (t.watchExpression id node).2 hu)
    {t : Session} (h : s.Leads allows t) : motive t h := by
  obtain ⟨requests, hcalls⟩ := h
  induction hcalls with
  | refl => exact refl
  | @call requests t request hcalls hallows ih =>
    have ht : s.Leads allows t := ⟨requests, hcalls⟩
    have hu : s.Leads allows (t.serve request).2 := ht.call request hallows
    change motive (t.serve request).2 hu
    cases request with
    | setFile file => exact setFile t file ih
    | setParsingModule on => exact setParsingModule t on ih
    | importSymbol name type library => exact importSymbol t name type library ht ih
    | addClass c =>
      change s.Leads allows (t.addClass c).2 at hu
      change motive (t.addClass c).2 hu
      revert hu
      unfold Session.addClass
      split
      · next classes happend => exact fun _ => addClass t c classes happend hallows ih
      · exact fun _ => ih
    | addMethod cls p =>
      change s.Leads allows (t.addMethod cls p).2 at hu
      change motive (t.addMethod cls p).2 hu
      revert hu
      unfold Session.addMethod
      split
      · exact fun _ => addMethod t cls p hallows ih
      · exact fun _ => ih
    | addProcedure p => exact addProcedure t p hallows ih
    | compile unit dialect => exact compile t unit dialect hallows ht ih
    | watchExpression id node =>
      cases hb : t.block? id with
      | none =>
        change s.Leads allows (t.watchExpression id node).2 at hu
        change motive (t.watchExpression id node).2 hu
        revert hu
        unfold Session.watchExpression
        rw [hb]
        exact fun _ => ih
      | some b => exact watchExpression t id b node hb hallows ht ih

end Session

end Diglot
