import Diglot.Proofs.Anchors.Passes
import Mathlib.Data.List.Induction
import Mathlib.Data.Nat.Digits.Defs

/-! # Integer literals

The text of an integer literal denotes a mathematical integer if it is an optional sign and at least
one decimal digit. `Numeral.read` reads it from left to right with a running value that has to fit
into 64 bits after every digit; what it computes is told here by the integers that the text and its
prefixes denote.

* `Denotes` is the grammar of numerals together with their values.
* `read_eq_ok` and `read_eq_overflow` say when reading gives a value and when it overflows.
* `lowerLiteral_int` says what is pushed for an integer literal and what is reported.
-/

set_option autoImplicit false

namespace Diglot

namespace Numeral

/-! ## What a text denotes -/

/-- The number that decimal digits denote, the most significant digit first. -/
def magnitude (digits : List Char) : Nat :=
  Nat.ofDigits 10 (digits.reverse.map fun c => c.toNat - '0'.toNat)

/-- The number on the side of zero that the sign gives. -/
def signed (negative : Bool) (n : Nat) : Int := if negative then -n else n

/-- The text is at least one decimal digit and nothing else. -/
def IsDigits (digits : List Char) : Prop := digits ≠ [] ∧ ∀ c ∈ digits, c.isDigit = true

/-- The text is an optional sign and at least one decimal digit, and this is its value. -/
inductive Denotes : List Char → Int → Prop where
  | unsigned {digits : List Char} (h : IsDigits digits) : Denotes digits (magnitude digits)
  | plus {digits : List Char} (h : IsDigits digits) : Denotes ('+' :: digits) (magnitude digits)
  | minus {digits : List Char} (h : IsDigits digits) : Denotes ('-' :: digits) (-magnitude digits)

/-- The value fits into 64 bits with a sign. -/
def InRange (v : Int) : Prop := -2 ^ 63 ≤ v ∧ v ≤ 2 ^ 63 - 1

instance (v : Int) : Decidable (InRange v) := inferInstanceAs (Decidable (_ ∧ _))

theorem fits_iff {v : Int} : fits v = true ↔ InRange v := by
  rw [fits, Bool.and_eq_true]
  exact and_congr decide_eq_true_iff decide_eq_true_iff

@[simp] theorem magnitude_nil : magnitude [] = 0 := rfl

@[simp] theorem signed_zero (negative : Bool) : signed negative 0 = 0 := by
  cases negative <;> rfl

theorem inRange_zero {negative : Bool} : InRange (signed negative (magnitude [])) := by
  cases negative <;> decide

theorem magnitude_concat (digits : List Char) (c : Char) :
    magnitude (digits ++ [c]) = magnitude digits * 10 + (c.toNat - '0'.toNat) := by
  simp only [magnitude, List.reverse_append, List.reverse_singleton, List.singleton_append,
    List.map_cons, Nat.ofDigits_cons]
  rw [Nat.mul_comm, Nat.add_comm]

/-- More digits denote no smaller number. -/
theorem magnitude_le_append (digits more : List Char) : magnitude digits ≤ magnitude (digits ++ more) := by
  induction more using List.reverseRecOn with
  | nil => simp
  | append_singleton more c ih =>
    rw [← List.append_assoc, magnitude_concat]
    omega

/-- A value that is too far from zero stays so with more digits. -/
theorem inRange_signed_of_le {negative : Bool} {m n : Nat} (hle : m ≤ n)
    (h : InRange (signed negative n)) : InRange (signed negative m) := by
  cases negative <;> simp only [InRange, signed, Bool.false_eq_true, if_false, if_true] at * <;> omega

/-! ## Reading digits -/

theorem digit?_eq (c : Char) : digit? c = if c.isDigit then some (c.toNat - '0'.toNat) else none := by
  have h : ('0' ≤ c ∧ c ≤ '9') ↔ c.isDigit = true := by
    simp only [Char.isDigit, Bool.and_eq_true, decide_eq_true_eq]
    exact Iff.rfl
  simp only [digit?, h]
  rfl

/-- One more digit is read if it is a digit and the value with it is in range. A digit that takes the
value out of range is an overflow, also if it is the shift that does. -/
theorem readDigits_cons (negative : Bool) (done : List Char) (c : Char) (rest : List Char) :
    readDigits negative (signed negative (magnitude done)) (c :: rest) =
      if c.isDigit then
        if fits (signed negative (magnitude (done ++ [c]))) then
          readDigits negative (signed negative (magnitude (done ++ [c]))) rest
        else .error .overflow
      else .error .malformed := by
  rw [readDigits, digit?_eq]
  cases hc : c.isDigit with
  | false => rfl
  | true =>
    have hnext : (if negative then signed negative (magnitude done) * 10 - ((c.toNat - '0'.toNat : Nat) : Int)
        else signed negative (magnitude done) * 10 + ((c.toNat - '0'.toNat : Nat) : Int)) =
          signed negative (magnitude (done ++ [c])) := by
      rw [magnitude_concat]
      cases negative <;> simp only [signed, Bool.false_eq_true, if_false, if_true] <;> omega
    have hshifted : signed negative (magnitude done) * 10 = signed negative (magnitude done * 10) := by
      cases negative <;> simp only [signed, Bool.false_eq_true, if_false, if_true] <;> omega
    -- the digit takes the value further from zero, so the shifted value fits if the next one does
    have hfits : (fits (signed negative (magnitude done) * 10) &&
        fits (signed negative (magnitude (done ++ [c])))) =
          fits (signed negative (magnitude (done ++ [c]))) := by
      refine Bool.and_eq_right_iff_imp.mpr fun h => ?_
      rw [hshifted, fits_iff]
      refine inRange_signed_of_le ?_ (fits_iff.mp h)
      rw [magnitude_concat]
      exact Nat.le_add_right _ _
    simp only [if_true, hnext, hfits]

/-- Reading digits gives a value exactly if there are only digits and what they denote together with the digits
before is in range. -/
theorem readDigits_eq_ok {negative : Bool} {done rest : List Char} {v : Int}
    (hdone : InRange (signed negative (magnitude done))) :
    readDigits negative (signed negative (magnitude done)) rest = .ok v ↔
      (∀ c ∈ rest, c.isDigit = true) ∧ v = signed negative (magnitude (done ++ rest)) ∧ InRange v := by
  induction rest generalizing done with
  | nil =>
    rw [readDigits, List.append_nil, Except.ok.injEq, eq_comm]
    exact ⟨fun h => ⟨by simp, h, h ▸ hdone⟩, fun h => h.2.1⟩
  | cons c rest ih =>
    rw [readDigits_cons, List.forall_mem_cons]
    split
    · next hc =>
      split
      · next hnext =>
        rw [ih (fits_iff.mp hnext), List.append_assoc, List.singleton_append]
        exact ⟨fun h => ⟨⟨hc, h.1⟩, h.2⟩, fun h => ⟨h.1.2, h.2⟩⟩
      · next hnext =>
        refine ⟨fun h => (by cases h), ?_⟩
        rintro ⟨-, rfl, hin⟩
        rw [← List.singleton_append, ← List.append_assoc] at hin
        exact absurd (fits_iff.mpr (inRange_signed_of_le (magnitude_le_append _ _) hin)) hnext
    · next hc => exact ⟨fun h => (by cases h), fun h => absurd h.1.1 hc⟩

/-- Reading digits overflows exactly if some of the first characters are digits that take the value out of range. -/
theorem readDigits_eq_overflow {negative : Bool} {done rest : List Char}
    (hdone : InRange (signed negative (magnitude done))) :
    readDigits negative (signed negative (magnitude done)) rest = .error .overflow ↔
      ∃ p, p <+: rest ∧ (∀ c ∈ p, c.isDigit = true) ∧ ¬ InRange (signed negative (magnitude (done ++ p))) := by
  induction rest generalizing done with
  | nil =>
    refine ⟨fun h => (by cases h), ?_⟩
    rintro ⟨p, hp, -, hout⟩
    rw [List.prefix_nil.mp hp, List.append_nil] at hout
    exact absurd hdone hout
  | cons c rest ih =>
    -- the prefix that is out of range has a first character, as the digits before are in range
    have hcons : (∃ p, p <+: c :: rest ∧ (∀ x ∈ p, x.isDigit = true) ∧
        ¬ InRange (signed negative (magnitude (done ++ p)))) ↔
          c.isDigit = true ∧ ∃ p, p <+: rest ∧ (∀ x ∈ p, x.isDigit = true) ∧
            ¬ InRange (signed negative (magnitude ((done ++ [c]) ++ p))) := by
      simp only [List.append_assoc, List.singleton_append]
      constructor
      · rintro ⟨p, hp, hdigits, hout⟩
        rcases List.prefix_cons_iff.mp hp with rfl | ⟨q, rfl, hq⟩
        · exact absurd (by simpa using hdone) hout
        · rw [List.forall_mem_cons] at hdigits
          exact ⟨hdigits.1, q, hq, hdigits.2, hout⟩
      · rintro ⟨hc, p, hp, hdigits, hout⟩
        exact ⟨c :: p, List.prefix_cons_iff.mpr (.inr ⟨p, rfl, hp⟩), List.forall_mem_cons.mpr ⟨hc, hdigits⟩, hout⟩
    rw [readDigits_cons, hcons]
    split
    · next hc =>
      split
      · next hnext => rw [ih (fits_iff.mp hnext), and_iff_right hc]
      · next hnext =>
        refine ⟨fun _ => ⟨hc, [], List.nil_prefix, by simp, ?_⟩, fun _ => rfl⟩
        rw [List.append_nil]
        exact fun h => hnext (fits_iff.mpr h)
    · next hc => exact ⟨fun h => (by cases h), fun h => absurd h.1 hc⟩

/-! ## Reading numerals -/

/-- A text with its sign taken off, by the sign that it begins with. -/
theorem splitSign_cases (chars : List Char) :
    (∃ digits, chars = '-' :: digits ∧ splitSign chars = (true, digits)) ∨
      (∃ digits, chars = '+' :: digits ∧ splitSign chars = (false, digits)) ∨
        (∀ digits, chars ≠ '-' :: digits ∧ chars ≠ '+' :: digits) ∧ splitSign chars = (false, chars) := by
  unfold splitSign
  split
  · next digits => exact .inl ⟨digits, rfl, rfl⟩
  · next digits => exact .inr (.inl ⟨digits, rfl, rfl⟩)
  · next hminus hplus => exact .inr (.inr ⟨fun digits => ⟨hminus digits, hplus digits⟩, rfl⟩)

theorem not_isDigits_cons {c : Char} {rest : List Char} (h : c.isDigit = false) : ¬ IsDigits (c :: rest) :=
  fun hdigits => by simpa [h] using hdigits.2 c List.mem_cons_self

/-- A text denotes what the digits behind its sign denote on the side of the sign. -/
theorem denotes_iff {chars : List Char} {v : Int} :
    Denotes chars v ↔
      IsDigits (splitSign chars).2 ∧ v = signed (splitSign chars).1 (magnitude (splitSign chars).2) := by
  rcases splitSign_cases chars with ⟨digits, rfl, hsplit⟩ | ⟨digits, rfl, hsplit⟩ | ⟨hplain, hsplit⟩ <;>
    rw [hsplit]
  · constructor
    · intro h
      cases h with
      | unsigned h => exact absurd h (not_isDigits_cons rfl)
      | minus h => exact ⟨h, rfl⟩
    · rintro ⟨h, rfl⟩
      exact .minus h
  · constructor
    · intro h
      cases h with
      | unsigned h => exact absurd h (not_isDigits_cons rfl)
      | plus h => exact ⟨h, rfl⟩
    · rintro ⟨h, rfl⟩
      exact .plus h
  · constructor
    · intro h
      cases h with
      | unsigned h => exact ⟨h, rfl⟩
      | @plus digits h => exact absurd rfl (hplain digits).2
      | @minus digits h => exact absurd rfl (hplain digits).1
    · rintro ⟨h, rfl⟩
      exact .unsigned h

theorem exists_prefix_cons {c : Char} {rest : List Char} {v : Int} :
    (∃ p, p <+: c :: rest ∧ Denotes p v) ↔ ∃ p, p <+: rest ∧ Denotes (c :: p) v := by
  constructor
  · rintro ⟨p, hp, h⟩
    rcases List.prefix_cons_iff.mp hp with rfl | ⟨q, rfl, hq⟩
    · exact absurd rfl (denotes_iff.mp h).1.1
    · exact ⟨q, hq, h⟩
  · rintro ⟨p, hp, h⟩
    exact ⟨c :: p, List.prefix_cons_iff.mpr (.inr ⟨p, rfl, hp⟩), h⟩

/-- The prefixes of a text that denote an integer are those that have a prefix of the digits behind the sign. -/
theorem exists_prefix_denotes {chars : List Char} {v : Int} :
    (∃ p, p <+: chars ∧ Denotes p v) ↔
      ∃ p, p <+: (splitSign chars).2 ∧ IsDigits p ∧ v = signed (splitSign chars).1 (magnitude p) := by
  rcases splitSign_cases chars with ⟨digits, rfl, hsplit⟩ | ⟨digits, rfl, hsplit⟩ | ⟨hplain, hsplit⟩ <;>
    rw [hsplit]
  · rw [exists_prefix_cons]
    exact exists_congr fun p => and_congr_right fun _ => denotes_iff
  · rw [exists_prefix_cons]
    exact exists_congr fun p => and_congr_right fun _ => denotes_iff
  · refine exists_congr fun p => and_congr_right fun hp => ?_
    -- a prefix of a text without a sign has none either
    rcases splitSign_cases p with ⟨digits, rfl, -⟩ | ⟨digits, rfl, -⟩ | ⟨-, hp'⟩
    · obtain ⟨more, hmore⟩ := hp
      exact absurd hmore.symm (hplain _).1
    · obtain ⟨more, hmore⟩ := hp
      exact absurd hmore.symm (hplain _).2
    · rw [denotes_iff, hp']

/-- Reading a text gives the integer that it denotes if that is in range, and no other value. -/
theorem read_eq_ok {chars : List Char} {v : Int} : read chars = .ok v ↔ Denotes chars v ∧ InRange v := by
  rw [denotes_iff, read]
  dsimp only
  cases hdigits : (splitSign chars).2 with
  | nil => exact ⟨fun h => (by cases h), fun h => absurd rfl h.1.1.1⟩
  | cons c rest =>
    rw [List.isEmpty_cons, if_neg Bool.false_ne_true, ← signed_zero (splitSign chars).1,
      ← magnitude_nil, readDigits_eq_ok inRange_zero, List.nil_append]
    constructor
    · rintro ⟨h, hv, hin⟩
      exact ⟨⟨⟨List.cons_ne_nil c rest, h⟩, hv⟩, hin⟩
    · rintro ⟨⟨⟨-, h⟩, hv⟩, hin⟩
      exact ⟨h, hv, hin⟩

/-- Reading a text overflows exactly if it begins with a numeral that is out of range. -/
theorem read_eq_overflow {chars : List Char} :
    read chars = .error .overflow ↔ ∃ p v, p <+: chars ∧ Denotes p v ∧ ¬ InRange v := by
  have hbegins : (∃ p v, p <+: chars ∧ Denotes p v ∧ ¬ InRange v) ↔
      ∃ p, p <+: (splitSign chars).2 ∧ IsDigits p ∧ ¬ InRange (signed (splitSign chars).1 (magnitude p)) := by
    rw [exists_comm]
    simp only [← and_assoc, exists_and_right, exists_prefix_denotes]
    constructor
    · rintro ⟨_, ⟨p, ⟨hp, hdigits⟩, rfl⟩, hout⟩
      exact ⟨p, ⟨hp, hdigits⟩, hout⟩
    · rintro ⟨p, ⟨hp, hdigits⟩, hout⟩
      exact ⟨_, ⟨p, ⟨hp, hdigits⟩, rfl⟩, hout⟩
  rw [hbegins, read]
  dsimp only
  cases hdigits : (splitSign chars).2 with
  | nil =>
    refine ⟨fun h => (by cases h), ?_⟩
    rintro ⟨p, hp, hne, -⟩
    exact absurd (List.prefix_nil.mp hp) hne.1
  | cons c rest =>
    rw [List.isEmpty_cons, if_neg Bool.false_ne_true, ← signed_zero (splitSign chars).1,
      ← magnitude_nil, readDigits_eq_overflow inRange_zero]
    refine exists_congr fun p => and_congr_right fun _ => ?_
    rw [List.nil_append]
    constructor
    · rintro ⟨h, hout⟩
      refine ⟨⟨?_, h⟩, hout⟩
      rintro rfl
      exact hout inRange_zero
    · rintro ⟨⟨-, h⟩, hout⟩
      exact ⟨h, hout⟩

/-- A text that is no numeral and begins with one that is out of range. -/
def OverflowsEarly (chars : List Char) : Prop :=
  ∃ p v, p <+: chars ∧ p ≠ chars ∧ Denotes p v ∧ ¬ InRange v

theorem read_of_denotes {chars : List Char} {v : Int} (h : Denotes chars v) (hout : ¬ InRange v) :
    read chars = .error .overflow :=
  read_eq_overflow.mpr ⟨chars, v, List.prefix_refl chars, h, hout⟩

/-- Reading a text that is no numeral overflows if it does so early. -/
theorem read_eq_overflow_of_not_denotes {chars : List Char} (h : ∀ v, ¬ Denotes chars v) :
    read chars = .error .overflow ↔ OverflowsEarly chars := by
  rw [read_eq_overflow]
  constructor
  · rintro ⟨p, v, hp, hv, hout⟩
    exact ⟨p, v, hp, fun heq => h v (heq ▸ hv), hv, hout⟩
  · rintro ⟨p, v, hp, -, hv, hout⟩
    exact ⟨p, v, hp, hv, hout⟩

end Numeral

namespace Lowering

/-! ## Lowering integer literals -/

/-- The guide that a value gets in front of it where guides are wanted. -/
def guideInFront (f : Frame) (s : State) : List Instruction :=
  if f.isGuided && s.session.options.replicationGuides then [.unary .pushindex (.guideCount 0)] else []

/-- What is recorded about an integer literal that cannot be represented. -/
def unrepresentable (s : State) (source : String) (span : Span) (issue : Issue) : Diagnostic :=
  s.session.diagnostic issue ("Integer literal '" ++ source ++ "' cannot be represented.") span

/-- Between the two states the integer was pushed, and nothing else, and this was recorded. -/
def PushesInt (f : Frame) (s t : State) (v : Int) (recorded : Diagnostics) : Prop :=
  Passes f s t (guideInFront f s ++ [.ternary .push (.int v) (.cls f.scope.classScope) (.arrayDim 0)]) recorded

variable {f : Frame} {s : State}

/-- A literal gives the value that is read for it, and a fault of the reading is recorded. -/
theorem run_literalOperand_int {u : State} {v : Int} {fault : Option (Issue × String)} {source : String}
    (hfile : u.session.file = s.session.file) (hread : readInt source = ⟨.int v, fault⟩) (span : Span) :
    ∃ t, literalOperand .int source span f u = .ok (.int v) t ∧
      Passes f u t [] (fault.elim #[] fun p => #[s.session.diagnostic p.1 p.2 span]) := by
  simp only [literalOperand, readLiteral?, hread]
  cases fault with
  | none => exact ⟨u, rfl, .refl f u⟩
  | some p =>
    have hdiagnostic : u.session.diagnostic p.1 p.2 span = s.session.diagnostic p.1 p.2 span := by
      rw [Session.diagnostic, hfile]
      rfl
    refine ⟨{ u with session := u.session.report (u.session.diagnostic p.1 p.2 span) }, rfl, ?_⟩
    rw [Option.elim_some, ← hdiagnostic]
    exact .report f u _

/-- Where code can be emitted, a literal pushes the value that is read for it. -/
theorem lowerLiteral_pushes {v : Int} {fault : Option (Issue × String)} {source : String}
    (hs : s.session.CanEmit f.block) (hread : readInt source = ⟨.int v, fault⟩) (span : Span) (expected : Ty) :
    ∃ t, lowerLiteral .int source span expected f s = .ok (literalType s.session.options .int expected) t ∧
      PushesInt f s t v (fault.elim #[] fun p => #[s.session.diagnostic p.1 p.2 span]) := by
  have hvalue (u : State) (hu : Passes f s u (guideInFront f s) #[]) :
      ∃ t, (literalOperand .int source span >>= fun operand => emitPush operand 0 span >>= fun _ =>
        pure (literalType s.session.options .int expected) : Lower Ty) f u =
          .ok (literalType s.session.options .int expected) t ∧
        PushesInt f s t v (fault.elim #[] fun p => #[s.session.diagnostic p.1 p.2 span]) := by
    obtain ⟨w, hoperand, hw⟩ := run_literalOperand_int (f := f) hu.file hread span
    obtain ⟨_, t, hpush, ht⟩ := passes_emitPush (hw.canEmit (hu.canEmit hs)) (.int v) 0 span
    refine ⟨t, by simp only [run_bind, hoperand, hpush, run_pure], ?_⟩
    simpa [PushesInt] using (hu.trans hw).trans ht
  unfold lowerLiteral
  simp only [guidesWanted, literalPrimitive, reduceCtorEq, if_false, run_bind, run_read, run_getSession, run_pure,
    run_ite]
  split
  · next hguided =>
    obtain ⟨_, u, hindex, hu⟩ := passes_emitPushIndex hs (.guideCount 0)
    obtain ⟨t, hrun, ht⟩ := hvalue u (by rwa [guideInFront, if_pos hguided])
    exact ⟨t, by simpa only [run_bind, run_pure, hindex] using hrun, ht⟩
  · next hplain =>
    obtain ⟨t, hrun, ht⟩ := hvalue s (by rw [guideInFront, if_neg hplain]; exact .refl f s)
    exact ⟨t, by simpa only [run_bind, run_pure] using hrun, ht⟩

/-- **Integer literals are exact.** A literal that denotes an integer in range pushes that integer, and nothing
is recorded. One that denotes an integer out of range pushes zero and is recorded as an overflow. One that denotes
nothing pushes zero as well, and is recorded as an overflow if a numeral out of range stands at its beginning
and as malformed otherwise. -/
theorem lowerLiteral_int (hs : s.session.CanEmit f.block) (source : String) (span : Span) (expected : Ty) :
    ∃ t, lowerLiteral .int source span expected f s = .ok (literalType s.session.options .int expected) t ∧
      (∀ v, Numeral.Denotes source.toList v →
        (Numeral.InRange v → PushesInt f s t v #[]) ∧
        (¬ Numeral.InRange v → PushesInt f s t 0 #[unrepresentable s source span .integerOverflow])) ∧
      ((∀ v, ¬ Numeral.Denotes source.toList v) →
        (Numeral.OverflowsEarly source.toList →
          PushesInt f s t 0 #[unrepresentable s source span .integerOverflow]) ∧
        (¬ Numeral.OverflowsEarly source.toList →
          PushesInt f s t 0 #[unrepresentable s source span .invalidNumber])) := by
  cases hread : Numeral.read source.toList with
  | ok v =>
    obtain ⟨hv, hin⟩ := Numeral.read_eq_ok.mp hread
    obtain ⟨t, hrun, ht⟩ := lowerLiteral_pushes hs (by rw [readInt, hread]) span expected
    refine ⟨t, hrun, fun w hw => ⟨fun hin' => ?_, fun hout => ?_⟩, fun hnone => absurd hv (hnone v)⟩
    · have heq := hread.symm.trans (Numeral.read_eq_ok.mpr ⟨hw, hin'⟩)
      cases heq
      exact ht
    · cases hread.symm.trans (Numeral.read_of_denotes hw hout)
  | error fault =>
    obtain ⟨t, hrun, ht⟩ := lowerLiteral_pushes hs (by rw [readInt, hread]) span expected
    cases fault with
    | overflow =>
      refine ⟨t, hrun, fun w hw => ⟨fun hin => ?_, fun _ => ht⟩, fun hnone => ⟨fun _ => ht, fun hlate => ?_⟩⟩
      · cases hread.symm.trans (Numeral.read_eq_ok.mpr ⟨hw, hin⟩)
      · exact absurd ((Numeral.read_eq_overflow_of_not_denotes hnone).mp hread) hlate
    | malformed =>
      refine ⟨t, hrun, fun w hw => ⟨fun hin => ?_, fun hout => ?_⟩, fun hnone => ⟨fun hearly => ?_, fun _ => ht⟩⟩
      · cases hread.symm.trans (Numeral.read_eq_ok.mpr ⟨hw, hin⟩)
      · cases hread.symm.trans (Numeral.read_of_denotes hw hout)
      · cases hread.symm.trans ((Numeral.read_eq_overflow_of_not_denotes hnone).mpr hearly)

/-- A session with a single block and nothing in it. -/
def blankState : State := { session := (Session.new {}).addBlock .language .associative none }

def blankFrame : Frame := { block := 0, scope := .global, dialect := .associative }

/-- The least integer is a literal of its own. -/
theorem least_integer_pushed :
    blankState.session.CanEmit blankFrame.block ∧
      ∃ t, lowerLiteral .int "-9223372036854775808" .nil .unknown blankFrame blankState = .ok (.primitive .int) t ∧
        PushesInt blankFrame blankState t (-9223372036854775808) #[] := by
  have hs : blankState.session.CanEmit blankFrame.block := .inr rfl
  refine ⟨hs, ?_⟩
  obtain ⟨t, hrun, hvalue, -⟩ := lowerLiteral_int hs "-9223372036854775808" .nil .unknown
  have hdenotes : Numeral.Denotes "-9223372036854775808".toList (-9223372036854775808) := by
    exact @Numeral.Denotes.minus "9223372036854775808".toList ⟨by decide, List.all_eq_true.mp (by decide)⟩
  exact ⟨t, hrun, (hvalue _ hdenotes).1 (by decide)⟩

/-- The digit that takes the value out of range comes before the fault. -/
example : Numeral.read "9223372036854775808x".toList = .error .overflow := by decide

example : Numeral.read "922337203685477580x".toList = .error .malformed := by decide

end Lowering

end Diglot
