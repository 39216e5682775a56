import MutableBitcoin.FixedPoint
import Mathlib.Data.Nat.Factorization.Basic

/-!
# Amounts are parsed exactly

The mantissa is kept without its trailing zeros, which are counted instead.
-/

namespace MutableBitcoin
open Lib List Option

section ParseOutcome
variable {α β : Type}

/-- A result is good, a refusal is explained, and nothing overflows. -/
def ParseOutcome (r : Except ParseFailure α) (good : α → Prop) (bad : Prop) : Prop :=
  match r with
  | .ok a => good a
  | .error .rejected => bad
  | .error .overflow => False

variable {r : Except ParseFailure α} {good : α → Prop} {bad : Prop}

lemma ParseOutcome.bind {f : α → Except ParseFailure β} {good' : β → Prop} {bad' : Prop} (h : ParseOutcome r good bad)
    (hbad : bad → bad') (hgood : ∀ a, good a → ParseOutcome (f a) good' bad') : ParseOutcome (r >>= f) good' bad' := by
  cases r with
  | ok a => exact hgood a h
  | error e =>
    cases e with
    | rejected => exact hbad h
    | overflow => exact h.elim

lemma ParseOutcome.mono {good' : α → Prop} {bad' : Prop} (h : ParseOutcome r good bad) (hbad : bad → bad')
    (hgood : ∀ a, good a → good' a) : ParseOutcome r good' bad' := by
  cases r with
  | ok a => exact hgood a h
  | error e =>
    cases e with
    | rejected => exact hbad h
    | overflow => exact h.elim

lemma ParseOutcome.ne_overflow (h : ParseOutcome r good bad) : r ≠ .error .overflow := by
  rintro rfl
  exact h

end ParseOutcome

lemma checkedInt64_of_fits {x : ℤ} (h : FitsInt64 x) : checkedInt64 x = .ok x := if_pos h

lemma checkedInt64_bind {α : Type} {x : ℤ} (h : FitsInt64 x) (f : ℤ → Except ParseFailure α) :
    (checkedInt64 x >>= f) = f x := by
  rw [checkedInt64_of_fits h]
  rfl

lemma checkedInt_of_lt {n : ℕ} (h : n < 2 ^ 31) : checkedInt n = .ok n := if_pos h

/-! ### Mantissa -/

/-- The digits `ds` are read. The mantissa ends in a digit that is not zero. -/
def ReadsMantissa (ds : Str) (st : FixedPoint) : Prop :=
  ∃ m : ℕ, st.mantissa = m ∧ m < 10 ^ 18 ∧ decimalValue ds = m * 10 ^ st.mantissa_tzeros ∧
    (m = 0 ∨ m % 10 ≠ 0) ∧ st.mantissa_tzeros ≤ ds.length

/-- The significant digits exceed the bound. -/
def TooLong (ds : Str) : Prop :=
  ∃ v j w, decimalValue ds = v * 10 ^ j + w ∧ w < 10 ^ j ∧ v % 10 ≠ 0 ∧ 10 ^ 18 ≤ v

lemma TooLong.concat {ds : Str} {c : Char} (h : TooLong ds) (hc : c.isDigit = true) : TooLong (ds ++ [c]) := by
  obtain ⟨v, j, w, hvalue, hw, hv, hle⟩ := h
  have hdigit := digitValue_lt hc
  refine ⟨v, j + 1, w * 10 + digitValue c, ?_, by rw [pow_succ]; omega, hv, hle⟩
  rw [decimalValue_concat, hvalue, pow_succ]
  ring

lemma shiftMantissa_outcome (rounds : ℕ) {m : ℕ} (hm : m < 10 ^ 18) :
    ParseOutcome (shiftMantissa rounds m) (fun r => r = (m * 10 ^ rounds : ℕ) ∧ m * 10 ^ rounds < 10 ^ 18)
      (10 ^ 18 ≤ m * 10 ^ rounds) := by
  induction rounds generalizing m with
  | zero =>
    refine ⟨?_, ?_⟩
    · rw [pow_zero, Nat.mul_one]
    · rwa [pow_zero, Nat.mul_one]
  | succ rounds ih =>
    have hpow : m * 10 ^ (rounds + 1) = m * 10 * 10 ^ rounds := by rw [pow_succ']; ring
    rw [shiftMantissa]
    split_ifs with hlong
    · have hm10 : 10 ^ 18 ≤ m * 10 := by
        have hbound : UPPER_BOUND / 10 = 99999999999999999 := rfl
        omega
      rw [hpow]
      exact hm10.trans (Nat.le_mul_of_pos_right _ (Nat.pow_pos (by decide)))
    · have hm10 : m * 10 < 10 ^ 18 := by
        have hbound : UPPER_BOUND / 10 = 99999999999999999 := rfl
        omega
      have hfits : checkedInt64 ((m : ℤ) * 10) = .ok ((m * 10 : ℕ) : ℤ) := by
        rw [Nat.cast_mul, Nat.cast_ofNat]
        exact checkedInt64_of_fits ⟨by omega, by omega⟩
      rw [hfits, hpow]
      exact ih hm10

lemma processMantissaDigit_outcome {ds : Str} {st : FixedPoint} {ch : Char} (h : ReadsMantissa ds st)
    (hch : ch.isDigit = true) (hlength : ds.length + 1 < 2 ^ 31) :
    ParseOutcome (processMantissaDigit ch st)
      (fun st' => ReadsMantissa (ds ++ [ch]) st' ∧ st'.point_ofs = st.point_ofs ∧ st'.exponent = st.exponent)
      (TooLong (ds ++ [ch])) := by
  obtain ⟨m, hm, hlt, hvalue, hlast, hzeros⟩ := h
  have hlength' : (ds ++ [ch]).length = ds.length + 1 := length_append
  rw [processMantissaDigit]
  split_ifs with hzero
  · rw [checkedInt_of_lt (by omega)]
    refine ⟨⟨m, hm, hlt, ?_, hlast, ?_⟩, rfl, rfl⟩
    · have hdigit : digitValue ch = 0 := by rw [hzero]; rfl
      rw [decimalValue_concat, hvalue, hdigit, Nat.add_zero, Nat.mul_assoc, ← pow_succ]
    · rw [hlength']
      exact Nat.succ_le_succ hzeros
  · have hdigit := digitValue_lt hch
    have hnat : ((ch.toNat : ℤ) - ('0'.toNat : ℤ)) = (digitValue ch : ℤ) := by
      have hge := (Char.isDigit_iff_toNat.mp hch).1
      rw [digitValue, Nat.cast_sub hge]
    have hne : digitValue ch % 10 ≠ 0 := by
      have hge := (Char.isDigit_iff_toNat.mp hch).1
      have hneq : ch.toNat ≠ '0'.toNat := fun heq => hzero (Char.toNat_inj.mp heq)
      rw [Nat.mod_eq_of_lt hdigit, digitValue]
      omega
    have hnext : decimalValue (ds ++ [ch]) = m * 10 ^ (st.mantissa_tzeros + 1) + digitValue ch := by
      rw [decimalValue_concat, hvalue, pow_succ, Nat.mul_assoc]
    have hmod : (m * 10 ^ (st.mantissa_tzeros + 1) + digitValue ch) % 10 ≠ 0 := by
      rwa [pow_succ, ← Nat.mul_assoc, Nat.add_comm, Nat.add_mul_mod_self_right]
    rw [hm]
    refine (shiftMantissa_outcome (st.mantissa_tzeros + 1) hlt).bind (fun hlong => ?_) ?_
    · refine ⟨_, 0, 0, ?_, Nat.one_pos, hmod, hlong.trans (Nat.le_add_right _ _)⟩
      rw [hnext, pow_zero, Nat.mul_one]
      rfl
    · rintro _ ⟨rfl, hfit⟩
      have hsum : m * 10 ^ (st.mantissa_tzeros + 1) + digitValue ch < 10 ^ 18 := by
        have hten : m * 10 ^ (st.mantissa_tzeros + 1) = m * 10 ^ st.mantissa_tzeros * 10 := by
          rw [pow_succ, Nat.mul_assoc]
        omega
      rw [hnat, ← Nat.cast_add, checkedInt64_of_fits ⟨by omega, by omega⟩]
      refine ⟨⟨_, rfl, hsum, ?_, .inr hmod, Nat.zero_le _⟩, rfl, rfl⟩
      rw [hnext, pow_zero, Nat.mul_one]

/-! ### Digits -/

/-- The text behind does not go on with a digit. -/
def NoDigitNext (rest : Str) : Prop := ∀ c ∈ rest.head?, c.isDigit = false

lemma takeWhile_digits {ds rest : Str} (hds : ∀ c ∈ ds, c.isDigit = true) (hrest : NoDigitNext rest) :
    (ds ++ rest).takeWhile Char.isDigit = ds ∧ (ds ++ rest).dropWhile Char.isDigit = rest := by
  have hnone : rest.takeWhile Char.isDigit = [] ∧ rest.dropWhile Char.isDigit = rest := by
    cases rest with
    | nil => exact ⟨rfl, rfl⟩
    | cons c rest => simp [hrest c rfl]
  rw [takeWhile_append_of_pos hds, dropWhile_append_of_pos hds, hnone.1, hnone.2, append_nil]
  exact ⟨rfl, rfl⟩

section Loop
variable {step : Char → FixedPoint → Except ParseFailure FixedPoint} {I : Str → FixedPoint → Prop}
  {bad : Str → Prop} {limit : ℕ}

/-- What a step does with a digit, when `ds` has been read by the same loop. -/
structure DigitStep (step : Char → FixedPoint → Except ParseFailure FixedPoint) (I : Str → FixedPoint → Prop)
    (bad : Str → Prop) (limit : ℕ) : Prop where
  outcome : ∀ ds ch st, I ds st → ch.isDigit = true → ds.length < limit →
    ParseOutcome (step ch st) (I (ds ++ [ch])) (bad (ds ++ [ch]))
  bad_concat : ∀ ds ch, bad ds → ch.isDigit = true → bad (ds ++ [ch])

lemma DigitStep.bad_append (hstep : DigitStep step I bad limit) {ds : Str} (h : bad ds) (es : Str)
    (hes : ∀ c ∈ es, c.isDigit = true) : bad (ds ++ es) := by
  induction es generalizing ds with
  | nil => rwa [append_nil]
  | cons c es ih =>
    obtain ⟨hc, hes⟩ := forall_mem_cons.mp hes
    rw [append_cons ds c es]
    exact ih (hstep.bad_concat ds c h hc) hes

lemma digitLoop_outcome (hstep : DigitStep step I bad limit) {ds : Str} {st : FixedPoint} (h : I ds st) (val : Str)
    (hlimit : ds.length + val.length ≤ limit) :
    ParseOutcome (digitLoop step st val)
      (fun r => r.2 = val.dropWhile Char.isDigit ∧ I (ds ++ val.takeWhile Char.isDigit) r.1)
      (bad (ds ++ val.takeWhile Char.isDigit)) := by
  induction val generalizing ds st with
  | nil =>
    refine ⟨rfl, ?_⟩
    rwa [takeWhile_nil, append_nil]
  | cons c val ih =>
    rw [length_cons] at hlimit
    rw [digitLoop]
    split_ifs with hc
    · rw [takeWhile_cons_of_pos hc, dropWhile_cons_of_pos hc, append_cons]
      refine (hstep.outcome ds c st h hc (by omega)).bind (fun hbad => ?_) fun st' hst' => ?_
      · exact hstep.bad_append hbad _ fun x hx => mem_takeWhile_imp hx
      · exact ih hst' (by rw [length_append, length_singleton]; omega)
    · rw [takeWhile_cons_of_neg hc, dropWhile_cons_of_neg hc, append_nil]
      exact ⟨rfl, h⟩

variable {st : FixedPoint}

lemma someDigits_outcome (hstep : DigitStep step I bad limit) (h : I [] st) (val : Str)
    (hlimit : val.length ≤ limit) :
    ParseOutcome (someDigits step st val) (fun r => ∃ ds : DigitText, val = ds.1 ++ r.2 ∧ I ds.1 r.1) True := by
  cases val with
  | nil => trivial
  | cons c val =>
    rw [someDigits]
    split_ifs with hc
    · refine (digitLoop_outcome hstep h (c :: val) (by simpa using hlimit)).mono (fun _ => trivial) ?_
      rintro ⟨st', rest⟩ ⟨hrest, hI⟩
      refine ⟨⟨(c :: val).takeWhile Char.isDigit, ?_, fun x hx => mem_takeWhile_imp hx⟩, ?_, hI⟩
      · rw [takeWhile_cons_of_pos hc]
        exact cons_ne_nil _ _
      · rw [hrest]
        exact takeWhile_append_dropWhile.symm
    · trivial

lemma someDigits_append_outcome (hstep : DigitStep step I bad limit) (h : I [] st) (ds : DigitText) {rest : Str}
    (hrest : NoDigitNext rest) (hlimit : (ds.1 ++ rest).length ≤ limit) :
    ParseOutcome (someDigits step st (ds.1 ++ rest)) (fun r => r.2 = rest ∧ I ds.1 r.1) (bad ds.1) := by
  obtain ⟨ds, hne, hds⟩ := ds
  obtain ⟨htake, hdrop⟩ := takeWhile_digits hds hrest
  cases ds with
  | nil => exact absurd rfl hne
  | cons c ds =>
    have hloop := digitLoop_outcome hstep h (c :: ds ++ rest) (by simpa using hlimit)
    rw [htake, hdrop] at hloop
    have hc := hds c mem_cons_self
    have hsome : someDigits step st (c :: ds ++ rest) = digitLoop step st (c :: ds ++ rest) := by
      rw [cons_append, someDigits, if_pos hc]
    rw [hsome]
    exact hloop

end Loop

/-! ### The parts of a number -/

/-- The mantissa has the digits `ds`, of which `n` are behind the point, and the exponent is `x`. -/
structure ReadsParts (ds : Str) (n x : ℕ) (st : FixedPoint) : Prop where
  mantissa : ReadsMantissa ds st
  point_ofs : st.point_ofs = n
  exponent : st.exponent = x

lemma wholeStep :
    DigitStep processMantissaDigit (fun ds => ReadsParts ds 0 0) TooLong (2 ^ 31 - 1) where
  outcome ds ch st h hch hlt := by
    refine (processMantissaDigit_outcome h.mantissa hch (by omega)).mono id ?_
    rintro st' ⟨hreads, hpoint, hexponent⟩
    exact ⟨hreads, hpoint.trans h.point_ofs, hexponent.trans h.exponent⟩
  bad_concat ds ch h hch := h.concat hch

lemma fractionStep (whole : Str) :
    DigitStep processFractionDigit (fun ds => ReadsParts (whole ++ ds) ds.length 0) (fun ds => TooLong (whole ++ ds))
      (2 ^ 31 - 1 - whole.length) where
  outcome ds ch st h hch hlt := by
    rw [processFractionDigit, ← append_assoc]
    have hlength : (whole ++ ds).length = whole.length + ds.length := length_append
    refine (processMantissaDigit_outcome h.mantissa hch (by omega)).bind id ?_
    rintro st' ⟨hreads, hpoint, hexponent⟩
    rw [hpoint, h.point_ofs, checkedInt_of_lt (by omega)]
    exact ⟨hreads, by rw [length_append]; rfl, hexponent.trans h.exponent⟩
  bad_concat ds ch h hch := by
    rw [← append_assoc]
    exact h.concat hch

lemma exponentStep (mantissa : Str) (n limit : ℕ) :
    DigitStep processExponentDigit (fun ds st => ReadsParts mantissa n (decimalValue ds) st ∧ decimalValue ds < 10 ^ 18)
      (fun ds => 10 ^ 18 ≤ decimalValue ds) limit where
  outcome ds ch st h hch _ := by
    obtain ⟨⟨hreads, hpoint, hexponent⟩, hlt⟩ := h
    have hbound : UPPER_BOUND / 10 = 99999999999999999 := rfl
    have hdigit := digitValue_lt hch
    have hchar : (ch.toNat : ℤ) = '0'.toNat + digitValue ch := by
      have hge := (Char.isDigit_iff_toNat.mp hch).1
      rw [digitValue, Nat.cast_sub hge]
      ring
    have hzero : ('0'.toNat : ℤ) = 48 := rfl
    rw [processExponentDigit, decimalValue_concat, hexponent]
    split_ifs with hlong
    · have hge : 10 ^ 18 ≤ decimalValue ds * 10 + digitValue ch := by omega
      exact hge
    · have hproduct : FitsInt64 ((decimalValue ds : ℤ) * 10) := ⟨by omega, by omega⟩
      have hsum : FitsInt64 ((decimalValue ds : ℤ) * 10 + ch.toNat) := ⟨by omega, by omega⟩
      have hresult : (decimalValue ds : ℤ) * 10 + ch.toNat - '0'.toNat = (decimalValue ds * 10 + digitValue ch : ℕ) := by
        rw [hchar, Nat.cast_add, Nat.cast_mul, Nat.cast_ofNat]
        ring
      have hfits : FitsInt64 ((decimalValue ds * 10 + digitValue ch : ℕ) : ℤ) := ⟨by omega, by omega⟩
      have hlt' : decimalValue ds * 10 + digitValue ch < 10 ^ 18 := by omega
      rw [checkedInt64_bind hproduct, checkedInt64_bind hsum, hresult, checkedInt64_bind hfits]
      exact ⟨⟨hreads, hpoint, rfl⟩, hlt'⟩
  bad_concat ds ch h hch := by
    rw [decimalValue_concat]
    omega

lemma reads_start : ReadsParts [] 0 0 ⟨0, 0, 0, 0⟩ :=
  ⟨⟨0, rfl, by decide, rfl, .inl rfl, le_rfl⟩, rfl, rfl⟩

lemma reads_zero : ReadsParts ['0'] 0 0 ⟨0, 0, 0, 0⟩ :=
  ⟨⟨0, rfl, by decide, rfl, .inl rfl, Nat.zero_le _⟩, rfl, rfl⟩

lemma readWhole_outcome (val : Str) (hval : val.length < 2 ^ 31) :
    ParseOutcome (readWhole ⟨0, 0, 0, 0⟩ val)
      (fun r => ∃ ds : DigitText, (ds.1.head? = some '0' → ds.1 = ['0']) ∧ val = ds.1 ++ r.2 ∧ ReadsParts ds.1 0 0 r.1)
      True := by
  unfold readWhole
  split
  · next val => exact ⟨⟨['0'], by simp, all_eq_true.mp (by decide)⟩, fun _ => rfl, rfl, reads_zero⟩
  · next hzero =>
    refine (someDigits_outcome wholeStep reads_start val (by omega)).mono id ?_
    rintro ⟨st, rest⟩ ⟨ds, rfl, hreads⟩
    refine ⟨ds, fun hhead => ?_, rfl, hreads⟩
    obtain ⟨ds, hne, hds⟩ := ds
    cases ds with
    | nil => exact absurd rfl hne
    | cons c ds =>
      obtain rfl : c = '0' := Option.some.inj hhead
      exact absurd rfl (hzero (ds ++ rest))

lemma readWhole_append_outcome (ds : DigitText) (hhead : ds.1.head? = some '0' → ds.1 = ['0']) {rest : Str}
    (hrest : NoDigitNext rest) (hval : (ds.1 ++ rest).length < 2 ^ 31) :
    ParseOutcome (readWhole ⟨0, 0, 0, 0⟩ (ds.1 ++ rest)) (fun r => r.2 = rest ∧ ReadsParts ds.1 0 0 r.1) (TooLong ds.1) := by
  by_cases hzero : ds.1.head? = some '0'
  · rw [hhead hzero]
    exact ⟨rfl, reads_zero⟩
  · have hwhole : readWhole ⟨0, 0, 0, 0⟩ (ds.1 ++ rest) =
        someDigits processMantissaDigit ⟨0, 0, 0, 0⟩ (ds.1 ++ rest) := by
      rw [readWhole]
      intro val hval
      obtain ⟨ds, hne, hds⟩ := ds
      cases ds with
      | nil => exact hne rfl
      | cons c ds =>
        rw [cons_append, List.cons.injEq] at hval
        exact hzero (by rw [head?_cons, hval.1])
    rw [hwhole]
    exact someDigits_append_outcome wholeStep reads_start ds hrest (by omega)

lemma readFraction_outcome {whole : Str} {st : FixedPoint} (h : ReadsParts whole 0 0 st) (val : Str)
    (hlength : whole.length + val.length < 2 ^ 31) :
    ParseOutcome (readFraction st val)
      (fun r => ∃ fraction : Option DigitText, val = (fraction.elim [] fun ds => '.' :: ds.1) ++ r.2 ∧
        ReadsParts (whole ++ fraction.elim [] Subtype.val) (fraction.elim [] Subtype.val).length 0 r.1) True := by
  have hstart : ReadsParts (whole ++ []) 0 0 st := by rwa [append_nil]
  unfold readFraction
  split
  · next val =>
    rw [length_cons] at hlength
    refine (someDigits_outcome (fractionStep whole) hstart val (by omega)).mono id ?_
    rintro ⟨st', rest⟩ ⟨ds, rfl, hreads⟩
    exact ⟨some ds, rfl, hreads⟩
  · exact ⟨none, rfl, hstart⟩

lemma readFraction_append_outcome {whole : Str} {st : FixedPoint} (h : ReadsParts whole 0 0 st)
    (fraction : Option DigitText) {rest : Str} (hrest : NoDigitNext rest) (hpoint : rest.head? ≠ some '.')
    (hlength : whole.length + ((fraction.elim [] fun ds => '.' :: ds.1) ++ rest).length < 2 ^ 31) :
    ParseOutcome (readFraction st ((fraction.elim [] fun ds => '.' :: ds.1) ++ rest))
      (fun r => r.2 = rest ∧
        ReadsParts (whole ++ fraction.elim [] Subtype.val) (fraction.elim [] Subtype.val).length 0 r.1)
      (TooLong (whole ++ fraction.elim [] Subtype.val)) := by
  have hstart : ReadsParts (whole ++ []) 0 0 st := by rwa [append_nil]
  cases fraction with
  | none =>
    have hnone : readFraction st rest = .ok (st, rest) := by
      unfold readFraction
      split
      · exact absurd rfl hpoint
      · rfl
    rw [elim_none, nil_append, hnone]
    exact ⟨rfl, hstart⟩
  | some ds =>
    rw [elim_some, cons_append, length_cons] at hlength
    exact someDigits_append_outcome (fractionStep whole) hstart ds hrest (by omega)

section Exponent
variable {mantissa : Str} {n : ℕ} {st : FixedPoint}

/-- The parser has read the exponent. -/
def ReadsExponent (mantissa : Str) (n : ℕ) (e : Option JsonExponent) (r : Bool × FixedPoint × Str) : Prop :=
  r.1 = e.elim false (fun e => e.sign == some true) ∧
    ReadsParts mantissa n (decimalValue (e.elim [] fun e => e.digits.1)) r.2.1 ∧
    decimalValue (e.elim [] fun e => e.digits.1) < 10 ^ 18

lemma exists_sign (val : Str) : ∃ sign : Option Bool,
    val = (sign.elim [] fun minus => [if minus then '-' else '+']) ++ skipSign val ∧
      isMinus val = (sign == some true) := by
  cases val with
  | nil => exact ⟨none, rfl, rfl⟩
  | cons c val =>
    by_cases hplus : c = '+'
    · exact ⟨some false, by simp [skipSign, hplus], by simp [isMinus, hplus]⟩
    · by_cases hminus : c = '-'
      · exact ⟨some true, by simp [hminus, isMinus, skipSign], by simp [isMinus, hminus]⟩
      · exact ⟨none, by simp [isMinus, hplus, hminus, skipSign], by simp [isMinus, hminus]⟩

lemma skipSign_text (sign : Option Bool) (ds : DigitText) :
    skipSign ((sign.elim [] fun minus => [if minus then '-' else '+']) ++ ds.1) = ds.1 ∧
      isMinus ((sign.elim [] fun minus => [if minus then '-' else '+']) ++ ds.1) = (sign == some true) := by
  obtain ⟨ds, hne, hds⟩ := ds
  cases ds with
  | nil => exact absurd rfl hne
  | cons c ds =>
    have hc := hds c mem_cons_self
    have hplus : c ≠ '+' := by rintro rfl; exact absurd hc (by decide)
    have hminus : c ≠ '-' := by rintro rfl; exact absurd hc (by decide)
    cases sign with
    | none => simp [skipSign, isMinus, hplus, hminus]
    | some minus => cases minus <;> simp [skipSign, isMinus]

lemma readExponent_outcome (h : ReadsParts mantissa n 0 st) (val : Str) :
    ParseOutcome (readExponent st val)
      (fun r => ∃ e : Option JsonExponent, val = e.elim [] JsonExponent.text ++ r.2.2 ∧ ReadsExponent mantissa n e r)
      True := by
  have hstart : ReadsParts mantissa n (decimalValue []) st ∧ decimalValue [] < 10 ^ 18 := ⟨h, by decide⟩
  cases val with
  | nil => exact ⟨none, rfl, rfl, hstart.1, hstart.2⟩
  | cons ch val =>
    rw [readExponent]
    by_cases hch : ch = 'e' ∨ ch = 'E'
    · rw [if_pos hch]
      refine (someDigits_outcome (exponentStep mantissa n _) hstart (skipSign val) le_rfl).bind id ?_
      rintro ⟨st', rest⟩ ⟨ds, hds, hreads, hlt⟩
      obtain ⟨sign, hsign, hminus⟩ := exists_sign val
      refine ⟨some ⟨ch == 'E', sign, ds⟩, ?_, hminus, hreads, hlt⟩
      have hletter : (if (ch == 'E') = true then 'E' else 'e') = ch := by
        obtain rfl | rfl := hch
        · rfl
        · rfl
      simp only [elim_some, JsonExponent.text, hletter, cons_append, append_assoc]
      rw [← hds, ← hsign]
    · rw [if_neg hch]
      exact ⟨none, rfl, rfl, hstart.1, hstart.2⟩

lemma readExponent_append_outcome (h : ReadsParts mantissa n 0 st) (e : Option JsonExponent) :
    ParseOutcome (readExponent st (e.elim [] JsonExponent.text))
      (fun r => r.2.2 = [] ∧ ReadsExponent mantissa n e r)
      (10 ^ 18 ≤ decimalValue (e.elim [] fun e => e.digits.1)) := by
  have hstart : ReadsParts mantissa n (decimalValue []) st ∧ decimalValue [] < 10 ^ 18 := ⟨h, by decide⟩
  cases e with
  | none => exact ⟨rfl, rfl, hstart.1, hstart.2⟩
  | some e =>
    obtain ⟨hskip, hminus⟩ := skipSign_text e.sign e.digits
    have hletter : (if e.capital = true then 'E' else 'e') = 'e' ∨ (if e.capital = true then 'E' else 'e') = 'E' := by
      cases e.capital <;> simp
    have hnil : NoDigitNext [] := by simp [NoDigitNext]
    rw [elim_some, JsonExponent.text, readExponent, if_pos hletter, hskip, hminus]
    have hdigits := someDigits_append_outcome (exponentStep mantissa n _) hstart e.digits hnil le_rfl
    rw [append_nil] at hdigits
    refine hdigits.bind id ?_
    rintro ⟨st', rest⟩ ⟨hrest, hreads, hlt⟩
    exact ⟨hrest, rfl, hreads, hlt⟩

end Exponent

/-! ### Numbers -/

/-- The parser has read the parts of the number. -/
structure ReadsNumber (num : JsonNumber) (r : ParsedNumber) : Prop where
  mantissa_sign : r.mantissa_sign = num.minus
  exponent_sign : r.exponent_sign = num.exponentMinus
  reads : ReadsParts num.mantissaDigits num.fractionDigits.length (decimalValue num.exponentDigits) r.st
  exponent_lt : decimalValue num.exponentDigits < 10 ^ 18

lemma isMinus_eq_false {ds rest : Str} (hne : ds ≠ []) (hds : ∀ c ∈ ds, c.isDigit = true) :
    isMinus (ds ++ rest) = false := by
  cases ds with
  | nil => exact absurd rfl hne
  | cons c ds =>
    have hminus : c ≠ '-' := by
      rintro rfl
      exact absurd (hds '-' mem_cons_self) (by decide)
    simp [isMinus, hminus]

lemma unsigned_text (num : JsonNumber) : isMinus num.text = num.minus ∧
    (if isMinus num.text then num.text.tail else num.text) =
      num.whole.1 ++ (num.fractionText ++ num.exponentText) := by
  have hunsigned : isMinus (num.whole.1 ++ (num.fractionText ++ num.exponentText)) = false :=
    isMinus_eq_false num.whole.2.1 num.whole.2.2
  rw [JsonNumber.text, append_assoc, append_assoc]
  cases hminus : num.minus with
  | true => exact ⟨rfl, rfl⟩
  | false =>
    change isMinus (num.whole.1 ++ _) = false ∧ (if isMinus (num.whole.1 ++ _) then _ else num.whole.1 ++ _) = _
    rw [hunsigned]
    exact ⟨rfl, rfl⟩

lemma exists_unsigned (val : Str) :
    val = signText (isMinus val) ++ (if isMinus val then val.tail else val) := by
  cases val with
  | nil => rfl
  | cons c val =>
    by_cases hminus : c = '-'
    · simp [isMinus, signText, hminus]
    · simp [isMinus, signText, hminus]

lemma readNumber_outcome {val : Str} (hval : val.length < 2 ^ 31) :
    ParseOutcome (readNumber val) (fun r => ∃ num : JsonNumber, val = num.text ∧ ReadsNumber num r) True := by
  have hunsigned := exists_unsigned val
  have hlength := congrArg List.length hunsigned
  rw [length_append] at hlength
  rw [readNumber, if_neg (Nat.not_le.mpr hval)]
  generalize hrest : (if isMinus val then val.tail else val) = rest at *
  refine (readWhole_outcome rest (by omega)).bind id ?_
  rintro ⟨st, rest₁⟩ ⟨whole, hhead, hwhole, hreads⟩
  dsimp only at hwhole hreads ⊢
  rw [hwhole, length_append] at hlength
  refine (readFraction_outcome hreads rest₁ (by omega)).bind id ?_
  rintro ⟨st, rest₂⟩ ⟨fraction, hfraction, hreads⟩
  dsimp only at hfraction hreads ⊢
  refine (readExponent_outcome hreads rest₂).bind id ?_
  rintro ⟨exponent_sign, st, rest₃⟩ ⟨exponent, hexponent, hsign, hreads, hlt⟩
  dsimp only at hexponent hsign hreads ⊢
  split_ifs with hgarbage
  · trivial
  · have hnil : rest₃ = [] := not_not.mp hgarbage
    refine ⟨⟨isMinus val, whole, hhead, fraction, exponent⟩, ?_, rfl, hsign, hreads, hlt⟩
    rw [hnil, append_nil] at hexponent
    rw [hwhole, hfraction, hexponent] at hunsigned
    rw [JsonNumber.text, append_assoc, append_assoc]
    exact hunsigned

lemma noDigitNext_exponent (num : JsonNumber) :
    NoDigitNext num.exponentText ∧ num.exponentText.head? ≠ some '.' := by
  rw [JsonNumber.exponentText]
  cases num.exponent with
  | none => simp [NoDigitNext]
  | some e =>
    rw [elim_some, JsonExponent.text]
    cases e.capital <;> simp [NoDigitNext]

lemma noDigitNext_fraction (num : JsonNumber) : NoDigitNext (num.fractionText ++ num.exponentText) := by
  have hexponent := (noDigitNext_exponent num).1
  rw [JsonNumber.fractionText]
  cases num.fraction with
  | none => exact hexponent
  | some ds => simp [NoDigitNext]

lemma digits_of_fraction (num : JsonNumber) : ∀ c ∈ num.fractionDigits, c.isDigit = true := by
  rw [JsonNumber.fractionDigits]
  cases num.fraction with
  | none => simp
  | some ds => exact ds.2.2

lemma readNumber_text_outcome (num : JsonNumber) (hlength : num.text.length < 2 ^ 31) :
    ParseOutcome (readNumber num.text) (ReadsNumber num)
      (TooLong num.mantissaDigits ∨ 10 ^ 18 ≤ decimalValue num.exponentDigits) := by
  obtain ⟨hsign, hunsigned⟩ := unsigned_text num
  have hsize : (num.whole.1 ++ (num.fractionText ++ num.exponentText)).length ≤ num.text.length := by
    rw [JsonNumber.text, append_assoc, append_assoc]
    exact (sublist_append_right _ _).length_le
  obtain ⟨hexponent, hpoint⟩ := noDigitNext_exponent num
  have hsize' := hsize
  rw [length_append] at hsize'
  rw [readNumber, if_neg (Nat.not_le.mpr hlength), hunsigned, hsign]
  refine (readWhole_append_outcome num.whole num.whole_head (noDigitNext_fraction num)
    (hsize.trans_lt hlength)).bind (fun hlong => .inl ?_) ?_
  · exact wholeStep.bad_append hlong _ (digits_of_fraction num)
  rintro ⟨st, rest₁⟩ ⟨rfl, hreads⟩
  refine (readFraction_append_outcome hreads num.fraction hexponent hpoint
    (hsize'.trans_lt hlength)).bind .inl ?_
  rintro ⟨st, rest₂⟩ ⟨rfl, hreads⟩
  refine (readExponent_append_outcome hreads num.exponent).bind .inr ?_
  rintro ⟨exponent_sign, st, rest₃⟩ ⟨rfl, hexponent_sign, hreads, hlt⟩
  exact ⟨rfl, hexponent_sign, hreads, hlt⟩

/-! ### The value -/

lemma applySign_eq (minus : Bool) {x : ℤ} (hx : x.natAbs < 10 ^ 18) :
    applySign minus x = .ok (if minus then -x else x) := by
  cases minus with
  | true => exact checkedInt64_of_fits ⟨by omega, by omega⟩
  | false => rfl

lemma scaleMantissa_outcome (rounds : ℕ) {m : ℤ} (hm : m.natAbs < 10 ^ 18) :
    ParseOutcome (scaleMantissa rounds m) (fun r => r = m * 10 ^ rounds ∧ r.natAbs < 10 ^ 18)
      (10 ^ 18 ≤ m.natAbs * 10 ^ rounds) := by
  induction rounds generalizing m with
  | zero => exact ⟨by rw [pow_zero, mul_one], hm⟩
  | succ rounds ih =>
    have hbound : UPPER_BOUND / 10 = 99999999999999999 := rfl
    have habs : (m * 10).natAbs = m.natAbs * 10 := Int.natAbs_mul m 10
    have hpow : m * 10 ^ (rounds + 1) = m * 10 * 10 ^ rounds := by rw [pow_succ']; ring
    have hnat : m.natAbs * 10 ^ (rounds + 1) = (m * 10).natAbs * 10 ^ rounds := by rw [habs, pow_succ']; ring
    rw [scaleMantissa, hpow, hnat]
    split_ifs with hlong
    · have hm10 : 10 ^ 18 ≤ (m * 10).natAbs := by omega
      exact hm10.trans (Nat.le_mul_of_pos_right _ (Nat.pow_pos (by decide)))
    · rw [checkedInt64_bind ⟨by omega, by omega⟩]
      exact ih (by omega)

/-- The scaled number is no integer below the bound. -/
def Unrepresentable (num : JsonNumber) (decimals : ℕ) : Prop :=
  num.value ≠ 0 → ∀ k : ℤ, (k : ℚ) = num.value * 10 ^ decimals → 10 ^ 18 ≤ k.natAbs

lemma value_mul (num : JsonNumber) (decimals : ℕ) :
    num.value * 10 ^ decimals =
      num.signFactor * (decimalValue num.mantissaDigits * 10 ^ (num.scale + decimals)) := by
  have hten : (10 : ℚ) ≠ 0 := by norm_num
  rw [JsonNumber.value, zpow_add₀ hten, zpow_natCast]
  ring

lemma decimalValue_ne_zero {num : JsonNumber} (h : num.value ≠ 0) : decimalValue num.mantissaDigits ≠ 0 := by
  intro hzero
  exact h (by rw [JsonNumber.value, hzero, Nat.cast_zero, zero_mul, mul_zero])

lemma le_natAbs_of_value {num : JsonNumber} {decimals v j w : ℕ} {k : ℤ}
    (hk : (k : ℚ) = num.value * 10 ^ decimals) (hdigits : decimalValue num.mantissaDigits = v * 10 ^ j + w)
    (hw : w < 10 ^ j) (hv : v % 10 ≠ 0) :
    0 ≤ j + (num.scale + decimals) ∧ v * 10 ^ (j + (num.scale + decimals)).toNat ≤ k.natAbs := by
  refine significant_le hv hw ?_
  have hsign : |(num.signFactor : ℚ)| = 1 := by
    rw [JsonNumber.signFactor]
    split_ifs
    · norm_num
    · norm_num
  rw [← Int.cast_natCast, Int.natCast_natAbs, Int.cast_abs, hk, value_mul, abs_mul, hsign, one_mul, hdigits]
  exact abs_of_nonneg (by positivity)

lemma TooLong.unrepresentable {num : JsonNumber} (h : TooLong num.mantissaDigits) (decimals : ℕ) :
    Unrepresentable num decimals := by
  intro _ k hk
  obtain ⟨v, j, w, hdigits, hw, hv, hle⟩ := h
  obtain ⟨-, hk⟩ := le_natAbs_of_value hk hdigits hw hv
  exact (hle.trans (Nat.le_mul_of_pos_right _ (Nat.pow_pos (by decide)))).trans hk

lemma exists_significant {n : ℕ} (hn : n ≠ 0) : ∃ v j, n = v * 10 ^ j ∧ v % 10 ≠ 0 := by
  obtain ⟨j, v, hv, rfl⟩ := Nat.exists_eq_pow_mul_and_not_dvd hn 10 (by decide)
  exact ⟨v, j, Nat.mul_comm _ _, fun hmod => hv (Nat.dvd_of_mod_eq_zero hmod)⟩

lemma unrepresentable_of_exponent {num : JsonNumber} (hexponent : 10 ^ 18 ≤ decimalValue num.exponentDigits)
    (hlength : num.text.length < 2 ^ 31) {decimals : ℕ} (hdecimals : decimals ≤ 18) :
    Unrepresentable num decimals := by
  intro hne k hk
  obtain ⟨v, j, hdigits, hv⟩ := exists_significant (decimalValue_ne_zero hne)
  obtain ⟨hscale, hle⟩ := le_natAbs_of_value hk (w := 0) hdigits (Nat.pow_pos (by decide)) hv
  have hmantissa := num.length_text_le
  have hfraction : num.fractionDigits.length ≤ num.mantissaDigits.length := by
    rw [JsonNumber.mantissaDigits, length_append]
    exact Nat.le_add_left _ _
  have hj : j < num.mantissaDigits.length := by
    have hlt : decimalValue num.mantissaDigits < 10 ^ num.mantissaDigits.length := decimalValue_lt fun c hc =>
      (mem_append.mp hc).elim (num.whole.2.2 c) (digits_of_fraction num c)
    have hv1 : 1 ≤ v := Nat.one_le_iff_ne_zero.mpr fun hzero => hv (by rw [hzero])
    have hpow : 10 ^ j ≤ v * 10 ^ j := Nat.le_mul_of_pos_left _ hv1
    exact (Nat.pow_lt_pow_iff_right (by decide)).mp ((hpow.trans_eq hdigits.symm).trans_lt hlt)
  have hvalue := num.exponentValue_eq
  rw [JsonNumber.scale] at hscale hle
  cases hminus : num.exponentMinus with
  | true =>
    rw [hminus, if_pos rfl] at hvalue
    omega
  | false =>
    rw [hminus, if_neg Bool.false_ne_true] at hvalue
    have hbig : 18 ≤ (j + (num.exponentValue - num.fractionDigits.length + decimals)).toNat := by omega
    have hv1 : 1 ≤ v := Nat.one_le_iff_ne_zero.mpr fun hzero => hv (by rw [hzero])
    calc 10 ^ 18 ≤ 10 ^ (j + (num.exponentValue - num.fractionDigits.length + decimals)).toNat :=
          Nat.pow_le_pow_right (by decide) hbig
      _ ≤ v * 10 ^ (j + (num.exponentValue - num.fractionDigits.length + decimals)).toNat :=
          Nat.le_mul_of_pos_left _ hv1
      _ ≤ k.natAbs := hle

lemma finalizeNumber_outcome {num : JsonNumber} {r : ParsedNumber} (h : ReadsNumber num r)
    (hlength : num.text.length < 2 ^ 31) {decimals : ℕ} (hdecimals : decimals ≤ 18) :
    ParseOutcome (finalizeNumber r decimals)
      (fun a => (a : ℚ) = num.value * 10 ^ decimals ∧ a.natAbs < 10 ^ 18) (Unrepresentable num decimals) := by
  obtain ⟨hminus, hsign, ⟨⟨m, hm, hlt, hdigits, hlast, hzeros⟩, hpoint, hexponent⟩, hx⟩ := h
  have hmantissa := num.length_text_le
  have hfraction : num.fractionDigits.length ≤ num.mantissaDigits.length := by
    rw [JsonNumber.mantissaDigits, length_append]
    exact Nat.le_add_left _ _
  have hvalue := num.exponentValue_eq
  -- The exponent, with the zeros behind the mantissa and the digits behind the point.
  obtain ⟨x, hx', hxvalue⟩ : ∃ x, applySign r.exponent_sign r.st.exponent = .ok x ∧ x = num.exponentValue := by
    refine ⟨_, applySign_eq _ (by rw [hexponent]; exact hx), ?_⟩
    rw [hexponent, hsign, hvalue]
  have hxbound : x.natAbs < 10 ^ 18 := by
    rw [hxvalue, hvalue]
    split_ifs <;> omega
  obtain ⟨y, hy, hyvalue⟩ : ∃ y, applySign r.mantissa_sign r.st.mantissa = .ok y ∧ y = num.signFactor * m := by
    refine ⟨_, applySign_eq _ (by rw [hm]; exact hlt), ?_⟩
    rw [hm, hminus, JsonNumber.signFactor]
    split_ifs
    · rw [neg_one_mul]
    · rw [one_mul]
  have hyabs : y.natAbs = m := by
    rw [hyvalue, JsonNumber.signFactor]
    split_ifs <;> omega
  obtain ⟨scale, hscale⟩ : ∃ scale, scale = x - num.fractionDigits.length + r.st.mantissa_tzeros + decimals := ⟨_, rfl⟩
  have hscale' : scale = r.st.mantissa_tzeros + (num.scale + decimals) := by
    rw [hscale, hxvalue, JsonNumber.scale]
    ring
  have hbad : ∀ k : ℤ, num.value ≠ 0 → (k : ℚ) = num.value * 10 ^ decimals →
      0 ≤ scale ∧ m * 10 ^ scale.toNat ≤ k.natAbs ∧ 1 ≤ m := by
    intro k hne hk
    have hne' := decimalValue_ne_zero hne
    have hm0 : m ≠ 0 := fun hzero => hne' (by rw [hdigits, hzero, Nat.zero_mul])
    obtain ⟨hnonneg, hle⟩ := le_natAbs_of_value hk (w := 0) hdigits (Nat.pow_pos (by decide)) (hlast.resolve_left hm0)
    rw [← hscale'] at hnonneg hle
    exact ⟨hnonneg, hle, Nat.one_le_iff_ne_zero.mpr hm0⟩
  rw [finalizeNumber, hx', hy, hpoint]
  change ParseOutcome (checkedInt64 (x - _) >>= _) _ _
  rw [checkedInt64_bind ⟨by omega, by omega⟩, checkedInt64_bind ⟨by omega, by omega⟩]
  change ParseOutcome (checkedInt64 (_ + decimals) >>= _) _ _
  rw [checkedInt64_bind ⟨by omega, by omega⟩, ← hscale]
  split_ifs with hneg hlarge
  · intro hne k hk
    exact absurd (hbad k hne hk).1 (not_le.mpr hneg)
  · intro hne k hk
    obtain ⟨hnonneg, hle, hm1⟩ := hbad k hne hk
    have hpow : 10 ^ 18 ≤ 10 ^ scale.toNat := Nat.pow_le_pow_right (by decide) (by omega)
    exact (hpow.trans (Nat.le_mul_of_pos_left _ hm1)).trans hle
  · refine (scaleMantissa_outcome scale.toNat (by rwa [hyabs])).bind (fun hlong hne k hk => ?_) ?_
    · rw [hyabs] at hlong
      exact hlong.trans (hbad k hne hk).2.1
    · rintro a ⟨ha, habs⟩
      have hupper : UPPER_BOUND = 999999999999999999 := rfl
      rw [if_neg (by omega)]
      refine ⟨?_, habs⟩
      have hten : (10 : ℚ) ≠ 0 := by norm_num
      obtain ⟨t, ht⟩ := Int.eq_ofNat_of_zero_le (not_lt.mp hneg)
      rw [ha, hyvalue, value_mul, hdigits, ht, Int.toNat_natCast]
      have hpow : (10 : ℚ) ^ r.st.mantissa_tzeros * 10 ^ (num.scale + decimals) = 10 ^ t := by
        rw [← zpow_natCast, ← zpow_add₀ hten, ← hscale', ht, zpow_natCast]
      push_cast
      rw [mul_assoc, mul_assoc, hpow]

lemma parseFixedPoint_outcome {val : Str} (hval : val.length < 2 ^ 31) {decimals : ℕ} (hdecimals : decimals ≤ 18) :
    ParseOutcome (parseFixedPoint val decimals)
      (fun a => ∃ num : JsonNumber, val = num.text ∧ (a : ℚ) = num.value * 10 ^ decimals ∧ a.natAbs < 10 ^ 18)
      True := by
  refine (readNumber_outcome hval).bind id ?_
  rintro r ⟨num, rfl, hreads⟩
  refine (finalizeNumber_outcome hreads hval hdecimals).mono (fun _ => trivial) ?_
  rintro a ⟨hvalue, habs⟩
  exact ⟨num, rfl, hvalue, habs⟩

lemma parseFixedPoint_text_outcome {num : JsonNumber} (hlength : num.text.length < 2 ^ 31) {decimals : ℕ}
    (hdecimals : decimals ≤ 18) :
    ParseOutcome (parseFixedPoint num.text decimals) (fun a => (a : ℚ) = num.value * 10 ^ decimals)
      (Unrepresentable num decimals) := by
  refine (readNumber_text_outcome num hlength).bind ?_ ?_
  · rintro (hlong | hexponent)
    · exact hlong.unrepresentable decimals
    · exact unrepresentable_of_exponent hexponent hlength hdecimals
  · intro r hreads
    refine (finalizeNumber_outcome hreads hlength hdecimals).mono id ?_
    rintro a ⟨hvalue, -⟩
    exact hvalue

end MutableBitcoin
