import Mathlib.Data.Rat.Cast.Order
import Mathlib.Algebra.Order.Field.Power
import Mathlib.Tactic.Positivity
import Mathlib.Tactic.Ring

/-!
# Decimal numbers as text

The number grammar of JSON and the rational number that a text of it denotes. A number is an integer exactly when
the zeros behind its significant digits make up for a negative exponent.
-/

namespace MutableBitcoin.Lib
open List Nat

def decimalValue (ds : List Char) : ℕ := Nat.ofDigitChars 10 ds 0

def digitValue (c : Char) : ℕ := c.toNat - '0'.toNat

lemma digitValue_lt {c : Char} (hc : c.isDigit = true) : digitValue c < 10 := by
  have hle : c.toNat ≤ 57 := (Char.isDigit_iff_toNat.mp hc).2
  have hzero : '0'.toNat = 48 := rfl
  rw [digitValue]
  omega

section Digits

@[simp] lemma decimalValue_nil : decimalValue [] = 0 := ofDigitChars_nil

lemma decimalValue_append (ds es : List Char) :
    decimalValue (ds ++ es) = decimalValue ds * 10 ^ es.length + decimalValue es := by
  rw [decimalValue, ofDigitChars_append, ofDigitChars_eq_ofDigitChars_zero, mul_comm]
  rfl

lemma decimalValue_singleton (c : Char) : decimalValue [c] = digitValue c := by
  simp [decimalValue, ofDigitChars_cons, digitValue]

lemma decimalValue_concat (ds : List Char) (c : Char) :
    decimalValue (ds ++ [c]) = decimalValue ds * 10 + digitValue c := by
  rw [decimalValue_append, decimalValue_singleton, length_singleton, pow_one]

lemma decimalValue_lt {ds : List Char} (hds : ∀ c ∈ ds, c.isDigit = true) :
    decimalValue ds < 10 ^ ds.length := by
  induction ds using List.reverseRecOn with
  | nil => exact one_pos
  | append_singleton ds c ih =>
    obtain ⟨hds, hc⟩ := forall_mem_append.mp hds
    have hlt := ih hds
    have hdigit := digitValue_lt (hc c (mem_singleton_self c))
    rw [decimalValue_concat, length_append, length_singleton, pow_succ]
    omega

end Digits

abbrev DigitText := {ds : List Char // ds ≠ [] ∧ ∀ c ∈ ds, c.isDigit = true}

/-- `e` or `E`, a sign and digits. -/
structure JsonExponent where
  capital : Bool
  /-- The sign, when there is one, and whether it is a minus. -/
  sign : Option Bool
  digits : DigitText

def signText (minus : Bool) : List Char := if minus then ['-'] else []

namespace JsonExponent

def text (e : JsonExponent) : List Char :=
  (if e.capital then 'E' else 'e') ::
    ((e.sign.elim [] fun minus => [if minus then '-' else '+']) ++ e.digits.1)

def value (e : JsonExponent) : ℤ :=
  if e.sign = some true then -(decimalValue e.digits.1 : ℤ) else decimalValue e.digits.1

end JsonExponent

/-- A number of the grammar. -/
structure JsonNumber where
  minus : Bool
  whole : DigitText
  whole_head : whole.1.head? = some '0' → whole.1 = ['0']
  fraction : Option DigitText
  exponent : Option JsonExponent

namespace JsonNumber
variable (num : JsonNumber)

def fractionDigits : List Char := num.fraction.elim [] Subtype.val

def fractionText : List Char := num.fraction.elim [] fun ds => '.' :: ds.1

def exponentText : List Char := num.exponent.elim [] JsonExponent.text

def text : List Char := signText num.minus ++ num.whole.1 ++ num.fractionText ++ num.exponentText

def mantissaDigits : List Char := num.whole.1 ++ num.fractionDigits

def exponentValue : ℤ := num.exponent.elim 0 JsonExponent.value

def scale : ℤ := num.exponentValue - num.fractionDigits.length

def signFactor : ℤ := if num.minus then -1 else 1

def value : ℚ := num.signFactor * (decimalValue num.mantissaDigits * 10 ^ num.scale)

def exponentMinus : Bool := num.exponent.elim false fun e => e.sign == some true

def exponentDigits : List Char := num.exponent.elim [] fun e => e.digits.1

lemma exponentValue_eq : num.exponentValue =
    if num.exponentMinus then -(decimalValue num.exponentDigits : ℤ) else decimalValue num.exponentDigits := by
  rw [exponentValue, exponentMinus, exponentDigits]
  cases num.exponent with
  | none => rfl
  | some e => simp [JsonExponent.value]

lemma length_text_le : num.mantissaDigits.length ≤ num.text.length := by
  rw [mantissaDigits, text, fractionDigits, fractionText]
  cases num.fraction with
  | none =>
    simp only [Option.elim_none, append_nil, length_append]
    omega
  | some ds =>
    simp only [Option.elim_some, length_append, length_cons]
    omega

end JsonNumber

lemma significant_le {v w j k : ℕ} {scale : ℤ} (hv : v % 10 ≠ 0) (hw : w < 10 ^ j)
    (hk : (k : ℚ) = ((v * 10 ^ j + w : ℕ) : ℚ) * 10 ^ scale) :
    0 ≤ j + scale ∧ v * 10 ^ (j + scale).toNat ≤ k := by
  have hten : (10 : ℚ) ≠ 0 := by norm_num
  have hscale : 0 ≤ j + scale := by
    by_contra hneg
    obtain ⟨s, hs⟩ : ∃ s : ℕ, scale = -((s + 1 + j : ℕ) : ℤ) := ⟨(-(j + scale + 1)).toNat, by omega⟩
    rw [hs, zpow_neg, zpow_natCast, eq_mul_inv_iff_mul_eq₀ (pow_ne_zero _ hten)] at hk
    have hnat : k * 10 ^ (s + 1 + j) = v * 10 ^ j + w := by exact_mod_cast hk
    have hw0 : w = 0 := by
      have hdvd : 10 ^ j ∣ v * 10 ^ j + w := by
        rw [← hnat, pow_add]
        exact (Dvd.intro_left _ rfl).mul_left k
      exact Nat.eq_zero_of_dvd_of_lt ((Nat.dvd_add_right (Dvd.intro_left v rfl)).mp hdvd) hw
    rw [hw0, add_zero, pow_add, ← mul_assoc] at hnat
    have hcancel : k * 10 ^ (s + 1) = v := Nat.eq_of_mul_eq_mul_right (Nat.pow_pos (by decide)) hnat
    rw [pow_succ, ← mul_assoc] at hcancel
    exact hv (by rw [← hcancel, mul_mod_left])
  refine ⟨hscale, ?_⟩
  obtain ⟨t, ht⟩ := Int.eq_ofNat_of_zero_le hscale
  rw [ht, Int.toNat_natCast]
  have hle : (v : ℚ) * 10 ^ j * 10 ^ scale ≤ k := by
    rw [hk, cast_add, cast_mul, cast_pow, cast_ofNat]
    exact mul_le_mul_of_nonneg_right (le_add_of_nonneg_right (cast_nonneg w)) (by positivity)
  have hpow : (v : ℚ) * 10 ^ j * 10 ^ scale = v * 10 ^ t := by
    rw [mul_assoc, ← zpow_natCast, ← zpow_add₀ hten, ht, zpow_natCast]
  rw [hpow] at hle
  exact_mod_cast hle

end MutableBitcoin.Lib
