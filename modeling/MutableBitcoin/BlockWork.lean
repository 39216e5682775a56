import MutableBitcoin.ArithUint256
import MutableBitcoin.BlockIndex
import MutableBitcoin.Lib.RoundDown
import Mathlib.Tactic.FieldSimp

/-!
# Compact targets

`SetCompact` and `GetCompact` of `arith_uint256.cpp`. Encoding a number and decoding it again rounds it down to
a mantissa of 23 bits and a power of 256.
-/

namespace MutableBitcoin
open Lib List BaseUint Nat Bool

namespace ArithUint256

/-- The value with the flags `pfNegative` and `pfOverflow`. -/
def setCompact (nCompact : UInt32) : ArithUint256 × Bool × Bool :=
  let nSize := (nCompact >>> 24).toNat
  let nWord := nCompact &&& 0x007fffff
  let nWord := if nSize ≤ 3 then nWord >>> UInt32.ofNat (8 * (3 - nSize)) else nWord
  let bn := ofUInt64 8 nWord.toUInt64
  (if nSize ≤ 3 then bn else bn.shiftLeft (UInt32.ofNat (8 * (nSize - 3))),
    nWord != 0 && nCompact &&& 0x00800000 != 0,
    nWord != 0 && (decide (34 < nSize) || (decide (0xff < nWord) && decide (33 < nSize)) ||
      (decide (0xffff < nWord) && decide (32 < nSize))))

/-- `arith_uint256::GetCompact`. -/
def getCompact (bn : ArithUint256) (fNegative : Bool) : Option UInt32 :=
  let nSize := (bn.bits + 7) / 8
  let nCompact :=
    if nSize ≤ 3 then (bn.getLow64 <<< UInt64.ofNat (8 * (3 - nSize))).toUInt32
    else (bn.shiftRight (UInt32.ofNat (8 * (nSize - 3)))).getLow64.toUInt32
  -- the sign bit must not be set
  let (nCompact, nSize) := if nCompact &&& 0x00800000 ≠ 0 then (nCompact >>> 8, nSize + 1) else (nCompact, nSize)
  if nCompact &&& ~~~0x007fffff ≠ 0 then none
  else if 256 ≤ nSize then none
  else
    let nCompact := nCompact ||| UInt32.ofNat nSize <<< 24
    some (nCompact ||| if fNegative ∧ nCompact &&& 0x007fffff ≠ 0 then 0x00800000 else 0)

section Fields

def compactSize (nCompact : UInt32) : ℕ := nCompact.toNat / 2 ^ 24

def compactMantissa (nCompact : UInt32) : ℕ := nCompact.toNat % 2 ^ 23

def decodedMantissa (nCompact : UInt32) : ℕ :=
  if compactSize nCompact ≤ 3 then compactMantissa nCompact / 256 ^ (3 - compactSize nCompact)
  else compactMantissa nCompact

def decodedValue (nCompact : UInt32) : ℕ := decodedMantissa nCompact * 256 ^ (compactSize nCompact - 3)

variable {c : UInt32}

lemma compactSize_lt (c : UInt32) : compactSize c < 256 := by
  have h := c.toNat_lt
  rw [compactSize]
  omega

lemma decodedMantissa_lt (c : UInt32) : decodedMantissa c < 2 ^ 23 := by
  have h : compactMantissa c < 2 ^ 23 := mod_lt _ (by decide)
  rw [decodedMantissa]
  split_ifs
  · exact (div_le_self _ _).trans_lt h
  · exact h

lemma toNat_size (c : UInt32) : (c >>> 24).toNat = compactSize c := by
  rw [UInt32.toNat_shiftRight, show (24 : UInt32).toNat % 32 = 24 from rfl, shiftRight_eq_div_pow, compactSize]

lemma toNat_mantissa (c : UInt32) : (c &&& 0x007fffff).toNat = compactMantissa c := by
  rw [UInt32.toNat_and]
  exact and_two_pow_sub_one_eq_mod c.toNat 23

lemma signBit_ne_zero : c &&& 0x00800000 ≠ 0 ↔ c.toNat.testBit 23 = true := by
  have h : (0x00800000 : UInt32).toNat = 2 ^ 23 := rfl
  rw [ne_zero_iff_toNat, UInt32.toNat_and, h, and_two_pow]
  cases c.toNat.testBit 23 <;> simp

lemma two_pow_bytes (n : ℕ) : 2 ^ (8 * n) = 256 ^ n := by
  rw [pow_mul]
  norm_num

lemma toNat_shiftRight_bytes (v : UInt32) {n : ℕ} (hn : n ≤ 3) :
    (v >>> UInt32.ofNat (8 * n)).toNat = v.toNat / 256 ^ n := by
  rw [UInt32.toNat_shiftRight, UInt32.toNat_ofNat', mod_eq_of_lt (show 8 * n < 2 ^ 32 by omega),
    mod_eq_of_lt (show 8 * n < 32 by omega), shiftRight_eq_div_pow, two_pow_bytes]

lemma toNat_word (c : UInt32) :
    (if compactSize c ≤ 3 then (c &&& 0x007fffff) >>> UInt32.ofNat (8 * (3 - compactSize c))
      else c &&& 0x007fffff).toNat = decodedMantissa c := by
  rw [decodedMantissa]
  split_ifs
  · rw [toNat_shiftRight_bytes _ (sub_le 3 _), toNat_mantissa]
  · exact toNat_mantissa c

theorem setCompact_value (c : UInt32) : (setCompact c).1.value = decodedValue c % 2 ^ 256 := by
  have hlt := decodedMantissa_lt c
  have hsize := compactSize_lt c
  have hbn : (ofUInt64 8 (if compactSize c ≤ 3 then
      (c &&& 0x007fffff) >>> UInt32.ofNat (8 * (3 - compactSize c)) else c &&& 0x007fffff).toUInt64).value =
      decodedMantissa c := by
    rw [value_ofUInt64 (by decide), UInt32.toNat_toUInt64, toNat_word]
  rw [setCompact, decodedValue]
  simp only [toNat_size]
  by_cases hsmall : compactSize c ≤ 3
  · rw [if_pos hsmall, Nat.sub_eq_zero_of_le hsmall, pow_zero, mul_one, hbn, Nat.mod_eq_of_lt (by omega)]
  · rw [if_neg hsmall, value_shiftLeft, hbn, UInt32.toNat_ofNat',
      mod_eq_of_lt (show 8 * (compactSize c - 3) < 2 ^ 32 by omega), two_pow_bytes]

theorem setCompact_negative (c : UInt32) :
    (setCompact c).2.1 = true ↔ decodedMantissa c ≠ 0 ∧ c.toNat.testBit 23 = true := by
  rw [setCompact]
  simp only [toNat_size]
  rw [and_eq_true, bne_iff_ne, bne_iff_ne, signBit_ne_zero, ne_zero_iff_toNat, toNat_word]

/-- The three thresholds decide whether the product fits. -/
theorem setCompact_overflow (c : UInt32) : (setCompact c).2.2 = true ↔ 2 ^ 256 ≤ decodedValue c := by
  have hlt := decodedMantissa_lt c
  rw [setCompact]
  simp only [toNat_size]
  rw [and_eq_true, bne_iff_ne, ne_zero_iff_toNat, or_eq_true, or_eq_true, and_eq_true,
    and_eq_true, decide_eq_true_eq, decide_eq_true_eq, decide_eq_true_eq, decide_eq_true_eq, decide_eq_true_eq,
    UInt32.lt_iff_toNat_lt, UInt32.lt_iff_toNat_lt, toNat_word, decodedValue, show (0xff : UInt32).toNat = 255 from rfl,
    show (0xffff : UInt32).toNat = 65535 from rfl]
  generalize decodedMantissa c = m at *
  rcases lt_or_ge (compactSize c) 33 with hsize | hsize
  · have hle : m * 256 ^ (compactSize c - 3) < 2 ^ 256 := by
      calc m * 256 ^ (compactSize c - 3) ≤ m * 256 ^ 29 :=
            Nat.mul_le_mul_left _ (Nat.pow_le_pow_right (by decide) (by omega))
        _ < 2 ^ 23 * 256 ^ 29 := mul_lt_mul_of_pos_right hlt (by positivity)
        _ < 2 ^ 256 := by norm_num
    omega
  · rcases lt_or_ge (compactSize c) 35 with hmid | hlarge
    · obtain h | h : compactSize c = 33 ∨ compactSize c = 34 := by omega
      · rw [h]
        omega
      · rw [h]
        omega
    · rw [iff_comm]
      constructor
      · intro hle
        exact ⟨fun hzero => by rw [hzero, zero_mul] at hle; omega, by omega⟩
      · rintro ⟨hpos, -⟩
        calc 2 ^ 256 = 1 * 256 ^ 32 := by norm_num
          _ ≤ m * 256 ^ (compactSize c - 3) :=
            Nat.mul_le_mul (Nat.pos_of_ne_zero hpos) (Nat.pow_le_pow_right (by decide) (by omega))

end Fields

section Encoding

def byteLength (n : ℕ) : ℕ := (Nat.size n + 7) / 8

def leadingBytes (n : ℕ) : ℕ :=
  if byteLength n ≤ 3 then n * 256 ^ (3 - byteLength n) else n / 256 ^ (byteLength n - 3)

def encodedMantissa (n : ℕ) : ℕ := if 2 ^ 23 ≤ leadingBytes n then leadingBytes n / 256 else leadingBytes n

def encodedSize (n : ℕ) : ℕ := if 2 ^ 23 ≤ leadingBytes n then byteLength n + 1 else byteLength n

variable {n : ℕ}

lemma lt_pow_byteLength (n : ℕ) : n < 256 ^ byteLength n := by
  rw [← two_pow_bytes]
  refine (Nat.lt_size_self n).trans_le (Nat.pow_le_pow_right (by decide) ?_)
  rw [byteLength]
  omega

lemma pow_byteLength_le {L : ℕ} (hL : byteLength n = L + 1) : 256 ^ L ≤ n := by
  rw [← two_pow_bytes]
  refine lt_size.mp ?_
  rw [byteLength] at hL
  omega

lemma byteLength_le (hn : n < 2 ^ 256) : byteLength n ≤ 32 := by
  have h := size_le.mpr hn
  rw [byteLength]
  omega

lemma leadingBytes_lt (n : ℕ) : leadingBytes n < 2 ^ 24 := by
  have hlt := lt_pow_byteLength n
  rw [leadingBytes, show (2 : ℕ) ^ 24 = 256 ^ 3 by norm_num]
  split_ifs with h
  · calc n * 256 ^ (3 - byteLength n) < 256 ^ byteLength n * 256 ^ (3 - byteLength n) :=
          mul_lt_mul_of_pos_right hlt (by positivity)
      _ = 256 ^ 3 := by rw [← pow_add, Nat.add_sub_cancel' h]
  · refine Nat.div_lt_of_lt_mul ?_
    rw [← pow_add, Nat.sub_add_cancel (by omega)]
    exact hlt

lemma encodedMantissa_lt (n : ℕ) : encodedMantissa n < 2 ^ 23 := by
  have h := leadingBytes_lt n
  rw [encodedMantissa]
  split_ifs <;> omega

lemma encodedSize_le (hn : n < 2 ^ 256) : encodedSize n ≤ 33 := by
  have h := byteLength_le hn
  rw [encodedSize]
  split_ifs <;> omega

lemma encodedMantissa_eq (n : ℕ) :
    encodedMantissa n =
      if encodedSize n ≤ 3 then n * 256 ^ (3 - encodedSize n) else n / 256 ^ (encodedSize n - 3) := by
  rw [encodedMantissa, encodedSize]
  split_ifs with hbit hsize hsize
  · rw [leadingBytes, if_pos (by omega), show 3 - byteLength n = 3 - (byteLength n + 1) + 1 by omega, pow_succ,
      ← mul_assoc, Nat.mul_div_cancel _ (by decide)]
  · rw [leadingBytes]
    split_ifs with h
    · rw [show 3 - byteLength n = 0 by omega, show byteLength n + 1 - 3 = 1 by omega, pow_zero, pow_one, mul_one]
    · rw [Nat.div_div_eq_div_mul, ← pow_succ, show byteLength n - 3 + 1 = byteLength n + 1 - 3 by omega]
  · rw [leadingBytes, if_pos hsize]
  · rw [leadingBytes, if_neg hsize]

lemma le_encodedMantissa (h : 3 < encodedSize n) : 2 ^ 15 ≤ encodedMantissa n := by
  rw [encodedSize] at h
  rw [encodedMantissa]
  split_ifs at h ⊢ with hbit
  · omega
  · have hlow := pow_byteLength_le (show byteLength n = byteLength n - 1 + 1 by omega)
    rw [leadingBytes, if_neg (by omega), le_div_iff_mul_le (by positivity)]
    calc 2 ^ 15 * 256 ^ (byteLength n - 3) ≤ 256 ^ 2 * 256 ^ (byteLength n - 3) :=
          mul_le_mul_right _ (by norm_num)
      _ = 256 ^ (byteLength n - 1) := by
        rw [← pow_add]
        congr 1
        omega
      _ ≤ n := hlow

lemma div_pow_encodedSize_le (n : ℕ) : n / 256 ^ (encodedSize n - 3) ≤ encodedMantissa n := by
  rw [encodedMantissa_eq]
  split_ifs with h
  · rw [Nat.sub_eq_zero_of_le h, pow_zero, Nat.div_one]
    exact Nat.le_mul_of_pos_right n (by positivity)
  · exact le_rfl

lemma encoded_value (n : ℕ) :
    (if encodedSize n ≤ 3 then encodedMantissa n / 256 ^ (3 - encodedSize n) else encodedMantissa n) *
      256 ^ (encodedSize n - 3) = n / 256 ^ (encodedSize n - 3) * 256 ^ (encodedSize n - 3) := by
  rw [encodedMantissa_eq]
  split_ifs with h
  · rw [Nat.mul_div_cancel _ (by positivity), Nat.sub_eq_zero_of_le h, pow_zero, Nat.div_one]
  · rfl

end Encoding

section Machine

variable {bn : ArithUint256}

lemma value_lt (bn : ArithUint256) : bn.value < 2 ^ 256 := BaseUint.value_lt bn

lemma toNat_leadingBytes (bn : ArithUint256) :
    (if byteLength bn.value ≤ 3 then (bn.getLow64 <<< UInt64.ofNat (8 * (3 - byteLength bn.value))).toUInt32
      else (bn.shiftRight (UInt32.ofNat (8 * (byteLength bn.value - 3)))).getLow64.toUInt32).toNat =
      leadingBytes bn.value := by
  have hlt := leadingBytes_lt bn.value
  have hn := lt_pow_byteLength bn.value
  have hlen := byteLength_le (value_lt bn)
  rw [leadingBytes] at hlt ⊢
  split_ifs at hlt ⊢ with h
  · have hsmall : bn.value < 2 ^ 64 := by
      refine hn.trans_le ((Nat.pow_le_pow_right (by decide) h).trans (by norm_num))
    rw [UInt64.toNat_toUInt32, UInt64.toNat_shiftLeft, UInt64.toNat_ofNat',
      mod_eq_of_lt (show 8 * (3 - byteLength bn.value) < 2 ^ 64 by omega),
      mod_eq_of_lt (show 8 * (3 - byteLength bn.value) < 64 by omega), shiftLeft_eq, two_pow_bytes,
      toNat_getLow64 (by decide), mod_eq_of_lt hsmall, mod_eq_of_lt (by omega),
      mod_eq_of_lt (by omega)]
  · rw [UInt64.toNat_toUInt32, toNat_getLow64 (by decide), value_shiftRight, UInt32.toNat_ofNat',
      mod_eq_of_lt (show 8 * (byteLength bn.value - 3) < 2 ^ 32 by omega), two_pow_bytes,
      mod_eq_of_lt (hlt.trans (by norm_num)), mod_eq_of_lt (hlt.trans (by norm_num))]

lemma toNat_or_shiftLeft {m k : ℕ} (hm : m < 2 ^ 23) (hk : k < 256) :
    (UInt32.ofNat m ||| UInt32.ofNat k <<< 24).toNat = 2 ^ 24 * k + m := by
  rw [UInt32.toNat_or, UInt32.toNat_shiftLeft, UInt32.toNat_ofNat', UInt32.toNat_ofNat',
    show (24 : UInt32).toNat % 32 = 24 from rfl, shiftLeft_eq, mod_eq_of_lt (show m < 2 ^ 32 by omega),
    mod_eq_of_lt (show k < 2 ^ 32 by omega), mod_eq_of_lt (by omega), mul_comm k, lor_comm,
    ← two_pow_add_eq_or_of_lt (by omega)]

lemma and_not_mantissa {m : ℕ} (hm : m < 2 ^ 23) : UInt32.ofNat m &&& ~~~0x007fffff = 0 := by
  refine UInt32.toNat_inj.mp (eq_of_testBit_eq fun i => ?_)
  have hmask : (~~~0x007fffff : UInt32).toNat = 2 ^ 23 * 511 := rfl
  rw [UInt32.toNat_and, UInt32.toNat_ofNat', mod_eq_of_lt (by omega), hmask, testBit_and,
    testBit_two_pow_mul, UInt32.toNat_zero, zero_testBit]
  rcases lt_or_ge i 23 with hlow | hhigh
  · rw [decide_eq_false (not_le.mpr hlow), Bool.false_and, Bool.and_false]
  · rw [Nat.testBit_lt_two_pow (hm.trans_le (Nat.pow_le_pow_right (by decide) hhigh)), Bool.false_and]

/-- The mantissa and the size end up as computed, and no assertion fails. -/
theorem getCompact_eq (bn : ArithUint256) (fNegative : Bool) :
    ∃ c : UInt32, c.toNat = 2 ^ 24 * encodedSize bn.value + encodedMantissa bn.value ∧
      getCompact bn fNegative = some (c ||| if fNegative ∧ c &&& 0x007fffff ≠ 0 then 0x00800000 else 0) := by
  have hlead := leadingBytes_lt bn.value
  have hmantissa := encodedMantissa_lt bn.value
  have hsize := encodedSize_le (value_lt bn)
  refine ⟨UInt32.ofNat (encodedMantissa bn.value) ||| UInt32.ofNat (encodedSize bn.value) <<< 24,
    toNat_or_shiftLeft hmantissa (by omega), ?_⟩
  have hraw := toNat_leadingBytes bn
  rw [getCompact]
  simp only [bits_eq]
  rw [show (Nat.size bn.value + 7) / 8 = byteLength bn.value from rfl]
  generalize (if byteLength bn.value ≤ 3 then (bn.getLow64 <<< UInt64.ofNat (8 * (3 - byteLength bn.value))).toUInt32
    else (bn.shiftRight (UInt32.ofNat (8 * (byteLength bn.value - 3)))).getLow64.toUInt32) = raw at hraw ⊢
  have hbit : raw &&& 0x00800000 ≠ 0 ↔ 2 ^ 23 ≤ leadingBytes bn.value := by
    rw [signBit_ne_zero, hraw, testBit_eq_decide_div_mod_eq, decide_eq_true_eq]
    omega
  have hfields : (if raw &&& 0x00800000 ≠ 0 then (raw >>> 8, byteLength bn.value + 1)
      else (raw, byteLength bn.value)) = (UInt32.ofNat (encodedMantissa bn.value), encodedSize bn.value) := by
    rw [encodedMantissa, encodedSize]
    simp only [hbit]
    split_ifs with h
    · refine Prod.ext (UInt32.toNat_inj.mp ?_) rfl
      rw [UInt32.toNat_shiftRight, hraw, UInt32.toNat_ofNat', show (8 : UInt32).toNat % 32 = 8 from rfl,
        shiftRight_eq_div_pow]
      exact (mod_eq_of_lt (by omega)).symm
    · refine Prod.ext (UInt32.toNat_inj.mp ?_) rfl
      rw [hraw, UInt32.toNat_ofNat', mod_eq_of_lt (by omega)]
  rw [hfields]
  have hmask := and_not_mantissa hmantissa
  dsimp only
  rw [if_neg (not_not.mpr hmask), if_neg (by omega)]

end Machine

section RoundTrip

/-- The values of compact forms without a flag. -/
def Representable : Set ℕ := {v | ∃ c, (setCompact c).2 = (false, false) ∧ (setCompact c).1.value = v}

/-- The number after `GetCompact` and `SetCompact`. -/
def compacted (bn : ArithUint256) : Option ArithUint256 := (getCompact bn false).map fun c => (setCompact c).1

lemma flags_eq_false {c : UInt32} : (setCompact c).2 = (false, false) ↔
    ¬(decodedMantissa c ≠ 0 ∧ c.toNat.testBit 23 = true) ∧ decodedValue c < 2 ^ 256 := by
  rw [← setCompact_negative, ← not_le, ← setCompact_overflow, not_eq_true, not_eq_true]
  exact Prod.ext_iff

lemma representable_subset {v : ℕ} (h : v ∈ Representable) : v ∈ scaledFormat 256 (2 ^ 15 * 256) := by
  obtain ⟨c, hflags, rfl⟩ := h
  rw [setCompact_value, mod_eq_of_lt (flags_eq_false.mp hflags).2]
  exact ⟨decodedMantissa c, (decodedMantissa_lt c).trans_le (by norm_num), _, rfl⟩

/-- The encoded number has no flag and is the number rounded down. -/
theorem getCompact_rounds (bn : ArithUint256) :
    ∃ c, getCompact bn false = some c ∧ (setCompact c).2 = (false, false) ∧
      RoundsDown Representable bn.value (setCompact c).1.value := by
  obtain ⟨c, hc, hrun⟩ := getCompact_eq bn false
  have hmantissa := encodedMantissa_lt bn.value
  have hsize : compactSize c = encodedSize bn.value := by
    rw [compactSize, hc]
    omega
  have hlow : compactMantissa c = encodedMantissa bn.value := by
    rw [compactMantissa, hc]
    omega
  have hvalue : decodedValue c =
      bn.value / 256 ^ (encodedSize bn.value - 3) * 256 ^ (encodedSize bn.value - 3) := by
    rw [decodedValue, decodedMantissa, hsize, hlow]
    exact encoded_value bn.value
  have hle : decodedValue c ≤ bn.value := by
    rw [hvalue]
    exact div_mul_le_self _ _
  have hfits : decodedValue c < 2 ^ 256 := hle.trans_lt (value_lt bn)
  have hsign : c.toNat.testBit 23 = false := by
    rw [testBit_eq_decide_div_mod_eq, hc, decide_eq_false_iff_not]
    omega
  have hflags : (setCompact c).2 = (false, false) :=
    flags_eq_false.mpr ⟨fun h => false_ne_true (hsign.symm.trans h.2), hfits⟩
  have hmod : (setCompact c).1.value = decodedValue c := (setCompact_value c).trans (mod_eq_of_lt hfits)
  rw [if_neg (fun h => Bool.false_ne_true h.1), UInt32.or_zero] at hrun
  refine ⟨c, hrun, hflags, ⟨⟨c, hflags, rfl⟩, hmod.trans_le hle⟩, ?_⟩
  rintro v ⟨hv, hvle⟩
  rw [hmod, hvalue]
  refine (roundsDown_div_mul (h := 2 ^ 15) (by decide) ?_ ?_).2 ⟨representable_subset hv, hvle⟩
  · exact (div_pow_encodedSize_le bn.value).trans_lt (hmantissa.trans_le (by norm_num))
  · rcases lt_or_ge 3 (encodedSize bn.value) with hlarge | hsmall
    · have hleading := le_encodedMantissa hlarge
      rw [encodedMantissa_eq, if_neg (not_le.mpr hlarge)] at hleading
      exact Or.inr hleading
    · exact Or.inl (Nat.sub_eq_zero_of_le hsmall)

lemma compacted_rounds (bn : ArithUint256) :
    ∃ t, compacted bn = some t ∧ RoundsDown Representable bn.value t.value := by
  obtain ⟨c, hc, -, hrounds⟩ := getCompact_rounds bn
  exact ⟨(setCompact c).1, by rw [compacted, hc, Option.map_some], hrounds⟩

lemma compacted_le {a b t u : ArithUint256} (ht : compacted a = some t) (hu : compacted b = some u)
    (h : a.value ≤ b.value) : t.value ≤ u.value := by
  obtain ⟨t', ht', hrounds⟩ := compacted_rounds a
  obtain ⟨u', hu', hrounds'⟩ := compacted_rounds b
  obtain rfl : t' = t := Option.some.inj (ht'.symm.trans ht)
  obtain rfl : u' = u := Option.some.inj (hu'.symm.trans hu)
  exact hrounds.mono hrounds' h

lemma getCompact_of_representable {bn : ArithUint256} (h : bn.value ∈ Representable) :
    ∃ c, getCompact bn false = some c ∧ setCompact c = (bn, false, false) := by
  obtain ⟨c, hc, hflags, hrounds⟩ := getCompact_rounds bn
  exact ⟨c, hc, Prod.ext (value_injective (hrounds.eq_of_mem h)) hflags⟩

lemma compacted_idem {a t : ArithUint256} (ht : compacted a = some t) : compacted t = some t := by
  obtain ⟨t', ht', hrounds⟩ := compacted_rounds a
  obtain rfl : t' = t := Option.some.inj (ht'.symm.trans ht)
  obtain ⟨c, hc, hset⟩ := getCompact_of_representable hrounds.1.1
  rw [compacted, hc, Option.map_some, hset]

lemma decodedValue_overflow_iff (c : UInt32) :
    2 ^ 256 ≤ decodedValue c ↔ (2 : ℚ) ^ 256 ≤ compactMantissa c * 256 ^ ((compactSize c : ℤ) - 3) := by
  have hlt : compactMantissa c < 2 ^ 23 := mod_lt _ (by decide)
  rw [decodedValue, decodedMantissa]
  split_ifs with h
  · have hdiv : compactMantissa c / 256 ^ (3 - compactSize c) ≤ compactMantissa c := div_le_self _ _
    have hpow : (256 : ℚ) ^ ((compactSize c : ℤ) - 3) ≤ 1 :=
      zpow_le_one_of_nonpos₀ (by norm_num) (by omega)
    have hm : (compactMantissa c : ℚ) < 2 ^ 23 := by exact_mod_cast hlt
    have hprod : (compactMantissa c : ℚ) * 256 ^ ((compactSize c : ℤ) - 3) ≤ compactMantissa c * 1 :=
      mul_le_mul_of_nonneg_left hpow (cast_nonneg _)
    refine iff_of_false ?_ ?_
    · rw [Nat.sub_eq_zero_of_le h, pow_zero, mul_one]
      omega
    · rw [not_le]
      linarith
  · have hexp : (compactSize c : ℤ) - 3 = ((compactSize c - 3 : ℕ) : ℤ) := by omega
    rw [hexp, zpow_natCast]
    exact_mod_cast Iff.rfl

/-- Encoding rounds down to the format, so it is monotone and idempotent, the flags say exactly when a compact
target is negative or too large, and every other one is kept. -/
theorem compact_exact :
    (∀ bn fNegative, (getCompact bn fNegative).isSome = true) ∧
      (∀ bn, ∃ c, getCompact bn false = some c ∧ (setCompact c).2 = (false, false) ∧
        IsGreatest {v | v ∈ Representable ∧ v ≤ bn.value} (setCompact c).1.value) ∧
      (∀ a b t u, compacted a = some t → compacted b = some u → a.value ≤ b.value → t.value ≤ u.value) ∧
      (∀ a t, compacted a = some t → compacted t = some t) ∧
      ∀ c, ((setCompact c).2.2 = true ↔ (2 : ℚ) ^ 256 ≤ compactMantissa c * 256 ^ ((compactSize c : ℤ) - 3)) ∧
        ((setCompact c).2.1 = true ↔ decodedMantissa c ≠ 0 ∧ c.toNat.testBit 23 = true) ∧
        ((setCompact c).2 = (false, false) →
          ∃ c', getCompact (setCompact c).1 false = some c' ∧ setCompact c' = setCompact c) := by
  refine ⟨?_, getCompact_rounds, fun a b t u => compacted_le, fun a t => compacted_idem, ?_⟩
  · intro bn fNegative
    obtain ⟨c, -, hc⟩ := getCompact_eq bn fNegative
    rw [hc]
    rfl
  · intro c
    refine ⟨?_, setCompact_negative c, fun hflags => ?_⟩
    · rw [setCompact_overflow, decodedValue_overflow_iff]
    · obtain ⟨c', hc', hset⟩ := getCompact_of_representable
        (show (setCompact c).1.value ∈ Representable from ⟨c, hflags, rfl⟩)
      refine ⟨c', hc', hset.trans ?_⟩
      exact Prod.ext rfl hflags.symm

end RoundTrip

end ArithUint256

/-!
## Block work

`GetBlockProof` of `chain.cpp` and the work of a chain, as `AddToBlockIndex` adds it up.
-/

namespace ArithUint256

/-- The expected number of hashes for a block: `2 ^ 256 / (target + 1)`. -/
def getBlockProof (nBits : UInt32) : Except UintError ArithUint256 :=
  let (bnTarget, fNegative, fOverflow) := setCompact nBits
  if fNegative || fOverflow || bnTarget.equalTo 0 then .ok (ofUInt64 8 0)
  else do
    let quotient ← bnTarget.complement.div (bnTarget.add (ofUInt64 8 1))
    .ok (quotient.add (ofUInt64 8 1))

/-- `nChainWork` of the last of some blocks, from the first block on. -/
def chainWork (chain : List UInt32) : Except UintError ArithUint256 :=
  chain.foldlM
    (fun nChainWork nBits => do
      let proof ← getBlockProof nBits
      .ok (nChainWork.add proof))
    (ofUInt64 8 0)

/-- A positive target without a flag. -/
def ValidTarget (nBits : UInt32) : Prop := (setCompact nBits).2 = (false, false) ∧ (setCompact nBits).1.value ≠ 0

instance (nBits : UInt32) : Decidable (ValidTarget nBits) := inferInstanceAs (Decidable (_ ∧ _))

def proofValue (nBits : UInt32) : ℕ :=
  if ValidTarget nBits then 2 ^ 256 / ((setCompact nBits).1.value + 1) else 0

section Proof

variable {nBits : UInt32}

lemma target_succ_lt (h : (setCompact nBits).2 = (false, false)) : (setCompact nBits).1.value + 1 < 2 ^ 256 := by
  have hlt := value_lt (setCompact nBits).1
  have hvalue := (setCompact_value nBits).trans (mod_eq_of_lt (flags_eq_false.mp h).2)
  have hmantissa := decodedMantissa_lt nBits
  rw [decodedValue] at hvalue
  rcases Nat.eq_zero_or_pos (compactSize nBits - 3) with hzero | hpos
  · rw [hzero, pow_zero, mul_one] at hvalue
    omega
  · obtain ⟨k, hk⟩ := exists_eq_succ_of_ne_zero hpos.ne'
    rw [hk, pow_succ, ← mul_assoc] at hvalue
    omega

lemma div_rewrite {T : ℕ} (hT : T + 1 < 2 ^ 256) : (2 ^ 256 - 1 - T) / (T + 1) + 1 = 2 ^ 256 / (T + 1) := by
  rw [show 2 ^ 256 - 1 - T = 2 ^ 256 - (T + 1) by omega, ← add_div_right _ (succ_pos T),
    Nat.sub_add_cancel hT.le]

lemma validTarget_iff (nBits : UInt32) : ValidTarget nBits ↔
    ((setCompact nBits).2.1 || (setCompact nBits).2.2 || (setCompact nBits).1.equalTo 0) = false := by
  have hzero : (setCompact nBits).1.equalTo 0 = true ↔ (setCompact nBits).1.value = 0 :=
    equalTo_iff (by decide) _ 0
  rw [ValidTarget, Ne, ← hzero, not_eq_true, or_eq_false_iff, or_eq_false_iff]
  exact and_congr_left fun _ => Prod.ext_iff

/-- The division is never one by zero, and the result is the formula's. -/
theorem value_getBlockProof (nBits : UInt32) :
    ∃ proof, getBlockProof nBits = .ok proof ∧ proof.value = proofValue nBits := by
  have hvalid := validTarget_iff nBits
  rw [getBlockProof, proofValue]
  dsimp only
  split_ifs with htest hcase hcase
  · exact absurd (htest.symm.trans (hvalid.mp hcase)) (by decide)
  · exact ⟨ofUInt64 8 0, rfl, value_ofUInt64 (by decide) 0⟩
  · have hlt := target_succ_lt hcase.1
    have hone : (ofUInt64 8 1).value = 1 := value_ofUInt64 (by decide) 1
    have hsucc : ((setCompact nBits).1.add (ofUInt64 8 1)).value = (setCompact nBits).1.value + 1 := by
      rw [value_add, hone, mod_eq_of_lt hlt]
    have hnot : (setCompact nBits).1.complement.value = 2 ^ 256 - 1 - (setCompact nBits).1.value := by
      have h : (setCompact nBits).1.complement.value + (setCompact nBits).1.value + 1 = 2 ^ 256 :=
        value_complement _
      omega
    obtain ⟨quotient, hdiv, hquotient⟩ := value_div (a := (setCompact nBits).1.complement)
      (b := (setCompact nBits).1.add (ofUInt64 8 1)) (by decide) (by rw [hsucc]; omega)
    rw [hsucc, hnot] at hquotient
    have hpos := hcase.2
    refine ⟨quotient.add (ofUInt64 8 1), by rw [hdiv, ok_bind], ?_⟩
    rw [value_add, hone, hquotient, div_rewrite hlt]
    exact mod_eq_of_lt (div_lt_self (by positivity) (by omega))
  · exact absurd (hvalid.mpr (eq_false_iff.mpr htest)) hcase

lemma proofValue_pos (h : ValidTarget nBits) : 0 < proofValue nBits := by
  rw [proofValue, if_pos h]
  exact div_pos (target_succ_lt h.1).le (succ_pos _)

end Proof

section ChainWork

lemma value_chainWork (chain : List UInt32) :
    ∃ work, chainWork chain = .ok work ∧ work.value = (chain.map proofValue).sum % 2 ^ 256 := by
  refine foldlM_ok (I := fun pre (work : ArithUint256) => work.value = (pre.map proofValue).sum % 2 ^ 256)
    (fun pre nBits post work _ hwork => ?_) (value_ofUInt64 (by decide) 0)
  obtain ⟨proof, hproof, hvalue⟩ := value_getBlockProof nBits
  refine ⟨work.add proof, by rw [hproof, ok_bind], ?_⟩
  rw [value_add, hwork, hvalue, map_append, sum_append_nat, map_singleton, sum_singleton,
    mod_add_mod]

lemma chainWork_lt {chain : List UInt32} (hvalid : ∀ nBits ∈ chain, ValidTarget nBits)
    (hsum : (chain.map proofValue).sum < 2 ^ 256) {i j : ℕ} (hij : i < j) (hj : j ≤ chain.length) :
    ∃ w w', chainWork (chain.take i) = .ok w ∧ chainWork (chain.take j) = .ok w' ∧ w.value < w'.value := by
  obtain ⟨w, hw, hvalue⟩ := value_chainWork (chain.take i)
  obtain ⟨w', hw', hvalue'⟩ := value_chainWork (chain.take j)
  refine ⟨w, w', hw, hw', ?_⟩
  have hall : ((chain.take j).map proofValue).sum + ((chain.drop j).map proofValue).sum = (chain.map proofValue).sum := by
    rw [← sum_append_nat, ← map_append, take_append_drop]
  have hpart : ((chain.take i).map proofValue).sum < ((chain.take j).map proofValue).sum := by
    have hsplit : chain.take j = chain.take i ++ (chain.drop i).take (j - i) := by
      rw [← take_add, Nat.add_sub_cancel' hij.le]
    have hi : i < chain.length := by omega
    rw [hsplit, map_append, sum_append_nat, drop_eq_getElem_cons hi,
      show j - i = j - i - 1 + 1 by omega, take_succ_cons, map_cons, sum_cons]
    have hpos := proofValue_pos (hvalid chain[i] (getElem_mem hi))
    omega
  rw [hvalue, hvalue', mod_eq_of_lt (by omega), mod_eq_of_lt (by omega)]
  exact hpart

end ChainWork

section Exactness

/-- The operators compute the numbers modulo `2 ^ 256`, the work of a block is the formula's, and the work of a
chain rises with every block of a valid target while it is below `2 ^ 256`. -/
theorem arithmetic_exact :
    (∀ (a : ArithUint256) shift, (a.shiftLeft shift).value = a.value * 2 ^ shift.toNat % 2 ^ 256) ∧
      (∀ (a : ArithUint256) shift, (a.shiftRight shift).value = a.value / 2 ^ shift.toNat % 2 ^ 256) ∧
      (∀ (a : ArithUint256) b32, (a.mulWord b32).value = a.value * b32.toNat % 2 ^ 256) ∧
      (∀ a b : ArithUint256, (a.mulAssign (.other b)).value = a.value * b.value % 2 ^ 256) ∧
      (∀ a b : ArithUint256, b.value ≠ 0 → ∃ q, a.div b = .ok q ∧ q.value = a.value / b.value % 2 ^ 256) ∧
      (∀ a : ArithUint256, a.bits = Nat.size a.value) ∧
      (∀ nBits, ∃ proof, getBlockProof nBits = .ok proof ∧
        proof.value = if ValidTarget nBits then 2 ^ 256 / ((setCompact nBits).1.value + 1) else 0) ∧
      ∀ chain : List UInt32, (∀ nBits ∈ chain, ValidTarget nBits) → (chain.map proofValue).sum < 2 ^ 256 →
        ∀ i j, i < j → j ≤ chain.length →
          ∃ w w', chainWork (chain.take i) = .ok w ∧ chainWork (chain.take j) = .ok w' ∧ w.value < w'.value := by
  refine ⟨value_shiftLeft, ?_, value_mulWord, value_mul, ?_, bits_eq,
    value_getBlockProof, fun chain hvalid hsum i j => chainWork_lt hvalid hsum⟩
  · intro a shift
    have hlt := value_lt a
    rw [value_shiftRight, mod_eq_of_lt ((div_le_self _ _).trans_lt hlt)]
  · intro a b hb
    obtain ⟨q, hq, hvalue⟩ := value_div (a := a) (by decide) hb
    have hlt := value_lt a
    exact ⟨q, hq, by rw [hvalue, mod_eq_of_lt ((div_le_self _ _).trans_lt hlt)]⟩

/-- Two blocks of target one make a work of zero, and a number multiplied by itself in place becomes zero. -/
theorem arithmetic_wraps :
    (∀ nBits ∈ [(0x01010000 : UInt32), 0x01010000], ValidTarget nBits) ∧
      (∃ w w', chainWork [0x01010000] = .ok w ∧ chainWork [0x01010000, 0x01010000] = .ok w' ∧
        ¬w.value < w'.value) ∧
      ((ofUInt64 8 2).mulAssign .this).value ≠
        (ofUInt64 8 2).value * (ofUInt64 8 2).value % 2 ^ 256 := by
  have hvalid : ValidTarget 0x01010000 := by decide +kernel
  have hproof : proofValue 0x01010000 = 2 ^ 255 := by decide +kernel
  refine ⟨?_, ?_, ?_⟩
  · intro nBits hmem
    obtain rfl | rfl := mem_pair.mp hmem
    · exact hvalid
    · exact hvalid
  · obtain ⟨w, hw, -⟩ := value_chainWork [0x01010000]
    obtain ⟨w', hw', hvalue'⟩ := value_chainWork [0x01010000, 0x01010000]
    refine ⟨w, w', hw, hw', ?_⟩
    have hzero : [2 ^ 255, 2 ^ 255].sum % 2 ^ 256 = 0 := by decide
    rw [hvalue', map_cons, map_singleton, hproof, hzero]
    exact not_lt_zero _
  · rw [mulAssign_this, value_zero, value_ofUInt64 (by decide)]
    decide

end Exactness

end ArithUint256

end MutableBitcoin
