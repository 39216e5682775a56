import MutableBitcoin.Uint256
import MutableBitcoin.Lib.ExceptOk
import MutableBitcoin.Lib.Radix
import Mathlib.Data.List.TakeWhile

/-!
# Base58

`EncodeBase58` and `DecodeBase58` of `base58.cpp`. Counts and sizes are kept in an `int`: a count may overflow, and
a size is narrowed.
-/

namespace MutableBitcoin
open Lib List Nat

def pszBase58 : Str := "123456789ABCDEFGHJKLMNPQRSTUVWXYZabcdefghijkmnopqrstuvwxyz".toList

/-- How a call can fail. -/
inductive Base58Failure where
  | signedOverflow
  | lengthError
  | carryAssertion
deriving DecidableEq

def strchr (str : Str) (c : Char) : Option ℕ := str.idxOf? c

def skipLeading {α : Type} [DecidableEq α] (c : α) : ℕ → List α → Except Base58Failure (ℕ × List α)
  | zeroes, [] => .ok (zeroes, [])
  | zeroes, x :: xs =>
    if x = c then
      if zeroes = 2 ^ 31 - 1 then .error .signedOverflow else skipLeading c (zeroes + 1) xs
    else .ok (zeroes, x :: xs)

/-- A size as an `int`. -/
def narrow (n : ℕ) : ℤ := (BitVec.ofNat 32 n).toInt

/-- A vector of as many zeros as an `int` says, which is converted to a `size_t`. -/
def allocate (size : ℤ) : Except Base58Failure (List ℕ) :=
  if size < 0 then .error .lengthError else .ok (List.replicate size.toNat 0)

def encodedSize (n : ℕ) : Except Base58Failure ℕ :=
  if 2 ^ 63 ≤ n * 138 then .error .signedOverflow else .ok (n * 138 / 100 + 1)

def encodeBytes (b58 : List ℕ) (length : ℕ) : Bytes → Except Base58Failure (List ℕ × ℕ)
  | [] => .ok (b58, length)
  | ch :: bytes =>
    let (b58, carry, i) := mulAdd 256 58 length 0 ch.toNat b58
    if carry ≠ 0 then .error .carryAssertion else encodeBytes b58 i bytes

/-- The last `length` digits without the leading zeros. -/
def significant (digits : List ℕ) (length : ℕ) : List ℕ :=
  (digits.take length).reverse.dropWhile (· == 0)

/-- `EncodeBase58`. -/
def encodeBase58 (vch : Bytes) : Except Base58Failure Str := do
  let (zeroes, bytes) ← skipLeading 0 0 vch
  let size ← encodedSize bytes.length
  let b58 ← allocate (narrow size)
  let (b58, length) ← encodeBytes b58 0 bytes
  return List.replicate zeroes '1' ++ (significant b58 length).map fun d => pszBase58.getD d '\x00'

/-- log(58) / log(256), rounded up, where the product is a `size_t`. -/
def decodedSize (n : ℕ) : ℕ := n * 733 % 2 ^ 64 / 1000 + 1

/-- Applies "b256 = b256 * 58 + ch" for each character up to white space. `none` when a character is not of the
alphabet. -/
def decodeChars (b256 : List ℕ) (length : ℕ) : Str → Except Base58Failure (Option (List ℕ × ℕ × Str))
  | [] => .ok (some (b256, length, []))
  | c :: psz =>
    if isspace c then .ok (some (b256, length, c :: psz))
    else match strchr pszBase58 c with
      | none => .ok none
      | some ch =>
        let (b256, carry, i) := mulAdd 58 256 length 0 ch b256
        if carry ≠ 0 then .error .carryAssertion else decodeChars b256 i psz

def finishDecode (zeroes : ℕ) : Option (List ℕ × ℕ × Str) → Option Bytes
  | none => none
  | some (b256, length, psz) =>
    if psz.dropWhile isspace ≠ [] then none
    else some (List.replicate zeroes 0 ++ (significant b256 length).map UInt8.ofNat)

def decodeCString (psz : Str) : Except Base58Failure (Option Bytes) := do
  let (zeroes, psz) ← skipLeading '1' 0 (psz.dropWhile isspace)
  let b256 ← allocate (narrow (decodedSize psz.length))
  let result ← decodeChars b256 0 psz
  return finishDecode zeroes result

/-- On a string, of which the C string is what comes before its first NUL. -/
def decodeBase58 (str : Str) : Except Base58Failure (Option Bytes) :=
  decodeCString (str.takeWhile (· ≠ '\x00'))

/-! ## What the Base58 functions compute -/

/-! ### The alphabet -/

lemma strchr_getD {d : ℕ} (hd : d < 58) : strchr pszBase58 (pszBase58.getD d '\x00') = some d := by
  have h : ∀ d < 58, strchr pszBase58 (pszBase58.getD d '\x00') = some d := by decide
  exact h d hd

lemma getD_mem {d : ℕ} (hd : d < 58) : pszBase58.getD d '\x00' ∈ pszBase58 := by
  have h : ∀ d < 58, pszBase58.getD d '\x00' ∈ pszBase58 := by decide
  exact h d hd

lemma strchr_eq_none_iff {c : Char} : strchr pszBase58 c = none ↔ c ∉ pszBase58 :=
  idxOf?_eq_none_iff

lemma strchr_of_mem {c : Char} (h : c ∈ pszBase58) :
    ∃ d < 58, strchr pszBase58 c = some d ∧ pszBase58.getD d '\x00' = c := by
  obtain ⟨d, hd, rfl⟩ := getElem_of_mem h
  have hget : pszBase58.getD d '\x00' = pszBase58[d] := by
    rw [getD_eq_getElem?_getD, getElem?_eq_getElem hd, Option.getD_some]
  exact ⟨d, hd, hget ▸ strchr_getD hd, hget⟩

lemma isspace_of_mem {c : Char} (h : c ∈ pszBase58) : isspace c = false := by
  obtain ⟨d, hd, -, rfl⟩ := strchr_of_mem h
  have hall : ∀ d < 58, isspace (pszBase58.getD d '\x00') = false := by decide
  exact hall d hd

def base58Digit (c : Char) : ℕ := (strchr pszBase58 c).getD 0

lemma base58Digit_of_strchr {c : Char} {d : ℕ} (hd : strchr pszBase58 c = some d) : base58Digit c = d := by
  rw [base58Digit, hd, Option.getD_some]

lemma strchr_eq_digit {c : Char} (h : c ∈ pszBase58) : strchr pszBase58 c = some (base58Digit c) := by
  obtain ⟨d, -, hd, -⟩ := strchr_of_mem h
  rw [base58Digit_of_strchr hd, hd]

lemma base58Digit_lt {c : Char} (h : c ∈ pszBase58) : base58Digit c < 58 := by
  obtain ⟨d, hlt, hd, -⟩ := strchr_of_mem h
  rwa [base58Digit_of_strchr hd]

lemma getD_base58Digit {c : Char} (h : c ∈ pszBase58) : pszBase58.getD (base58Digit c) '\x00' = c := by
  obtain ⟨d, -, hd, hget⟩ := strchr_of_mem h
  rwa [base58Digit_of_strchr hd]

lemma base58Digit_getD {d : ℕ} (hd : d < 58) : base58Digit (pszBase58.getD d '\x00') = d :=
  base58Digit_of_strchr (strchr_getD hd)

lemma base58Digit_eq_zero_iff {c : Char} (h : c ∈ pszBase58) : base58Digit c = 0 ↔ c = '1' := by
  constructor
  · intro hzero
    rw [← getD_base58Digit h, hzero]
    rfl
  · rintro rfl
    rfl

def textValue (cs : Str) : ℕ := radixValue 58 (cs.map base58Digit)

/-! ### Leading elements and sizes -/

lemma skipLeading_eq {α : Type} [DecidableEq α] (c : α) (zeroes : ℕ) (hzeroes : zeroes < 2 ^ 31) (xs : List α) :
    skipLeading c zeroes xs =
      if zeroes + (xs.takeWhile (· == c)).length < 2 ^ 31 then
        .ok (zeroes + (xs.takeWhile (· == c)).length, xs.dropWhile (· == c))
      else .error .signedOverflow := by
  induction xs generalizing zeroes with
  | nil => rw [if_pos (by simpa using hzeroes)]; rfl
  | cons x xs ih =>
    rw [skipLeading]
    by_cases hx : x = c
    · simp only [hx, if_true, takeWhile_cons, dropWhile_cons, beq_self_eq_true, length_cons]
      by_cases hlast : zeroes = 2 ^ 31 - 1
      · rw [if_pos hlast, if_neg (by omega)]
      · rw [if_neg hlast, ih (zeroes + 1) (by omega)]
        rw [show zeroes + 1 + (xs.takeWhile (· == c)).length = zeroes + ((xs.takeWhile (· == c)).length + 1) by
          omega]
    · have hbeq : (x == c) = false := beq_eq_false_iff_ne.mpr hx
      simp only [hx, hbeq, if_false, takeWhile_cons, dropWhile_cons, Bool.false_eq_true, length_nil,
        add_zero, hzeroes, if_true]

lemma narrow_eq_bmod (n : ℕ) : narrow n = ((n % 2 ^ 32 : ℕ) : ℤ).bmod (2 ^ 32) := by
  rw [narrow, BitVec.toInt_eq_toNat_bmod, BitVec.toNat_ofNat]

lemma narrow_of_lt {n : ℕ} (h : n < 2 ^ 31) : narrow n = n := by
  rw [narrow_eq_bmod, Int.bmod_def]
  omega

lemma narrow_lt (n : ℕ) : narrow n < 2 ^ 31 := by
  rw [narrow_eq_bmod, Int.bmod_def]
  omega

lemma narrow_neg {n : ℕ} (h : 2 ^ 31 ≤ n) (hlt : n < 2 ^ 32) : narrow n < 0 := by
  rw [narrow_eq_bmod, Int.bmod_def]
  omega

/-- What the buffer of a decoded text has room for. -/
theorem textValue_lt {cs : Str} (hcs : ∀ c ∈ cs, c ∈ pszBase58) :
    textValue cs < 256 ^ (cs.length * 733 / 1000 + 1) := by
  have hdigits : ∀ d ∈ cs.map base58Digit, d < 58 := by
    intro d hd
    obtain ⟨c, hc, rfl⟩ := mem_map.mp hd
    exact base58Digit_lt (hcs c hc)
  have hlt := radixValue_lt (by decide : 1 < 58) hdigits
  rw [length_map] at hlt
  exact hlt.trans (pow_lt_pow_estimate (by decide) (by decide) (by decide +kernel) _)

/-- What the buffer of an encoded byte string has room for. -/
theorem bytesValue_lt (bytes : Bytes) :
    radixValue 256 (bytes.map UInt8.toNat) < 58 ^ (bytes.length * 138 / 100 + 1) := by
  have hdigits : ∀ d ∈ bytes.map UInt8.toNat, d < 256 := by
    intro d hd
    obtain ⟨b, -, rfl⟩ := mem_map.mp hd
    exact b.toNat_lt
  have hlt := radixValue_lt (by decide : 1 < 256) hdigits
  rw [length_map] at hlt
  exact hlt.trans (pow_lt_pow_estimate (by decide) (by decide) (by decide +kernel) _)

/-! ### The loops -/

section Loops
variable {buffer : List ℕ} {length value : ℕ}

lemma mul_radixValue_le {base : ℕ} (hbase : 0 < base) (d value : ℕ) (ds : List ℕ) :
    base * value + d ≤ base ^ (ds.length + 1) * value + radixValue base (d :: ds) := by
  rw [radixValue_cons, pow_succ]
  have hpow : 0 < base ^ ds.length := Nat.pow_pos hbase
  calc base * value + d ≤ base ^ ds.length * (base * value + d) := Nat.le_mul_of_pos_left _ hpow
    _ ≤ base ^ ds.length * base * value + (base ^ ds.length * d + radixValue base ds) := by
        rw [mul_add, ← mul_assoc, ← add_assoc]
        exact le_add_right _ _

lemma radixValue_step (base d value : ℕ) (ds : List ℕ) :
    base ^ ds.length * (base * value + d) + radixValue base ds =
      base ^ (ds.length + 1) * value + radixValue base (d :: ds) := by
  rw [radixValue_cons, pow_succ]
  ring

lemma encodeBytes_fits (h : HoldsNumber 58 buffer length value) (bytes : Bytes)
    (hfits : 256 ^ bytes.length * value + radixValue 256 (bytes.map UInt8.toNat) < 58 ^ buffer.length) :
    ∃ buffer' length', encodeBytes buffer length bytes = .ok (buffer', length') ∧
      HoldsNumber 58 buffer' length' (256 ^ bytes.length * value + radixValue 256 (bytes.map UInt8.toNat)) := by
  induction bytes generalizing buffer length value with
  | nil => exact ⟨buffer, length, rfl, by simpa using h⟩
  | cons b bytes ih =>
    have hstep := mul_radixValue_le (by decide : 0 < 256) b.toNat value (bytes.map UInt8.toNat)
    rw [length_map] at hstep
    obtain ⟨buffer', length', hadd, hlength, hholds⟩ := h.mulAdd_fits (by decide) (hstep.trans_lt hfits)
    have hvalue := radixValue_step 256 b.toNat value (bytes.map UInt8.toNat)
    rw [length_map] at hvalue
    rw [map_cons, length_cons, ← hvalue] at hfits ⊢
    obtain ⟨buffer'', length'', hrun, hholds'⟩ := ih hholds (by rwa [hlength])
    refine ⟨buffer'', length'', ?_, hholds'⟩
    rw [encodeBytes, hadd]
    exact hrun

lemma encodeBytes_overflows (h : HoldsNumber 58 buffer length value) (bytes : Bytes)
    (hover : 58 ^ buffer.length ≤ 256 ^ bytes.length * value + radixValue 256 (bytes.map UInt8.toNat)) :
    encodeBytes buffer length bytes = .error .carryAssertion := by
  induction bytes generalizing buffer length value with
  | nil =>
    have hlt := ofDigits_lt_base_pow_length (by decide : 1 < 58) h.digit_lt
    rw [h.value_eq] at hlt
    simp at hover
    omega
  | cons b bytes ih =>
    rw [encodeBytes]
    by_cases hfits : 256 * value + b.toNat < 58 ^ buffer.length
    · obtain ⟨buffer', length', hadd, hlength, hholds⟩ := h.mulAdd_fits (by decide) hfits
      have hvalue := radixValue_step 256 b.toNat value (bytes.map UInt8.toNat)
      rw [length_map] at hvalue
      rw [hadd]
      exact ih hholds (by rwa [hlength, hvalue])
    · have hcarry := h.mulAdd_overflows (by decide) (Nat.le_of_not_lt hfits)
      generalize mulAdd 256 58 length 0 b.toNat buffer = r at hcarry ⊢
      exact if_pos hcarry

def numberPart (psz : Str) : Str := psz.takeWhile (· ∈ pszBase58)

lemma mem_of_mem_numberPart {psz : Str} {c : Char} (h : c ∈ numberPart psz) : c ∈ pszBase58 := by
  have hin := mem_takeWhile_imp h
  exact of_decide_eq_true hin

def afterNumber (psz : Str) : Str := psz.dropWhile (· ∈ pszBase58)

def scanned (buffer : List ℕ) (length : ℕ) (psz : Str) : Option (List ℕ × ℕ × Str) :=
  if (afterNumber psz).head?.all isspace then some (buffer, length, afterNumber psz) else none

lemma decodeChars_fits (h : HoldsNumber 256 buffer length value) (psz : Str)
    (hfits : 58 ^ (numberPart psz).length * value + textValue (numberPart psz) < 256 ^ buffer.length) :
    ∃ buffer' length', decodeChars buffer length psz = .ok (scanned buffer' length' psz) ∧
      HoldsNumber 256 buffer' length'
        (58 ^ (numberPart psz).length * value + textValue (numberPart psz)) := by
  induction psz generalizing buffer length value with
  | nil => exact ⟨buffer, length, rfl, by simpa [numberPart, textValue] using h⟩
  | cons c psz ih =>
    by_cases hc : c ∈ pszBase58
    · have hnumber : numberPart (c :: psz) = c :: numberPart psz := by simp [numberPart, hc]
      have hscanned : ∀ b l, scanned b l (c :: psz) = scanned b l psz := by
        intro b l
        have hafter : afterNumber (c :: psz) = afterNumber psz := by simp [afterNumber, hc]
        rw [scanned, scanned, hafter]
      have hstep := mul_radixValue_le (by decide : 0 < 58) (base58Digit c) value
        ((numberPart psz).map base58Digit)
      have hvalue := radixValue_step 58 (base58Digit c) value ((numberPart psz).map base58Digit)
      rw [length_map] at hstep hvalue
      simp only [hnumber, hscanned, textValue, map_cons, length_cons] at hfits ⊢
      obtain ⟨buffer', length', hadd, hlength, hholds⟩ := h.mulAdd_fits (by decide) (hstep.trans_lt hfits)
      rw [← hvalue] at hfits ⊢
      obtain ⟨buffer'', length'', hrun, hholds'⟩ := ih hholds (by rwa [hlength])
      refine ⟨buffer'', length'', ?_, hholds'⟩
      rw [decodeChars, isspace_of_mem hc, strchr_eq_digit hc]
      simp only [hadd]
      exact hrun
    · have hnumber : numberPart (c :: psz) = [] := by simp [numberPart, hc]
      refine ⟨buffer, length, ?_, by simpa [hnumber, textValue] using h⟩
      have hafter : afterNumber (c :: psz) = c :: psz := by simp [afterNumber, hc]
      rw [decodeChars, scanned, hafter, strchr_eq_none_iff.mpr hc]
      cases hspace : isspace c <;> simp [hspace]

lemma decodeChars_overflows (h : HoldsNumber 256 buffer length value) (psz : Str)
    (hover : 256 ^ buffer.length ≤ 58 ^ (numberPart psz).length * value + textValue (numberPart psz)) :
    decodeChars buffer length psz = .error .carryAssertion := by
  have hlt := ofDigits_lt_base_pow_length (by decide : 1 < 256) h.digit_lt
  rw [h.value_eq] at hlt
  induction psz generalizing buffer length value with
  | nil =>
    simp [numberPart, textValue] at hover
    omega
  | cons c psz ih =>
    by_cases hc : c ∈ pszBase58
    · have hnumber : numberPart (c :: psz) = c :: numberPart psz := by simp [numberPart, hc]
      rw [decodeChars, isspace_of_mem hc, strchr_eq_digit hc]
      simp only [Bool.false_eq_true, if_false]
      by_cases hfits : 58 * value + base58Digit c < 256 ^ buffer.length
      · obtain ⟨buffer', length', hadd, hlength, hholds⟩ := h.mulAdd_fits (by decide) hfits
        have hvalue := radixValue_step 58 (base58Digit c) value ((numberPart psz).map base58Digit)
        rw [length_map] at hvalue
        simp only [hadd]
        refine ih hholds ?_ (by rwa [hlength])
        rw [hlength, textValue, hvalue]
        simpa only [hnumber, textValue, map_cons, length_cons] using hover
      · have hcarry := h.mulAdd_overflows (by decide) (Nat.le_of_not_lt hfits)
        generalize mulAdd 58 256 length 0 (base58Digit c) buffer = r at hcarry ⊢
        exact if_pos hcarry
    · have hnumber : numberPart (c :: psz) = [] := by simp [numberPart, hc]
      simp [hnumber, textValue] at hover
      omega

end Loops

/-! ### Encoding -/

/-- The leading zeros can be counted, and the size of the buffer is an `int`. -/
structure EncodeFits (vch : Bytes) : Prop where
  zeroes_lt : (vch.takeWhile (· == 0)).length < 2 ^ 31
  size_lt : (vch.dropWhile (· == 0)).length * 138 / 100 + 1 < 2 ^ 31

def bytesValue (bytes : Bytes) : ℕ := radixValue 256 (bytes.map UInt8.toNat)

def numberText (n : ℕ) : Str := (radixDigits 58 n).map fun d => pszBase58.getD d '\x00'

def encodedText (vch : Bytes) : Str :=
  List.replicate (vch.takeWhile (· == 0)).length '1' ++ numberText (bytesValue (vch.dropWhile (· == 0)))

lemma allocate_of_nonneg {size : ℤ} (h : 0 ≤ size) : allocate size = .ok (List.replicate size.toNat 0) :=
  if_neg (not_lt.mpr h)

lemma encodeBase58_of_fits {vch : Bytes} (h : EncodeFits vch) : encodeBase58 vch = .ok (encodedText vch) := by
  have hzeroes := h.zeroes_lt
  have hsize := h.size_lt
  rw [encodeBase58, skipLeading_eq 0 0 (by decide) vch, zero_add, if_pos hzeroes, ok_bind]
  have hvalue := bytesValue_lt (vch.dropWhile (· == 0))
  simp only [encodedText, numberText, bytesValue]
  generalize vch.dropWhile (· == 0) = bytes at *
  have hproduct : ¬ 2 ^ 63 ≤ bytes.length * 138 := by omega
  rw [encodedSize, if_neg hproduct, ok_bind, narrow_of_lt hsize, allocate_of_nonneg (Int.natCast_nonneg _),
    ok_bind, Int.toNat_natCast]
  obtain ⟨buffer, length, hrun, hholds⟩ := encodeBytes_fits
    (holdsNumber_zeros (by decide) (bytes.length * 138 / 100 + 1)) bytes (by simpa using hvalue)
  rw [hrun, ok_bind]
  rw [mul_zero, zero_add] at hholds
  simp only [significant, hholds.digits_eq (by decide)]
  rfl

lemma pow_le_bytesValue {bytes : Bytes} (hne : bytes ≠ []) (hhead : bytes.head? ≠ some 0) :
    256 ^ (bytes.length - 1) ≤ bytesValue bytes := by
  cases bytes with
  | nil => exact absurd rfl hne
  | cons b bytes =>
    have hpos : 0 < b.toNat := by
      refine pos_of_ne_zero fun hzero => hhead ?_
      rw [head?_cons, UInt8.toNat_inj.mp (hzero.trans UInt8.toNat_zero.symm)]
    rw [bytesValue, map_cons, radixValue_cons, length_map, length_cons, Nat.add_sub_cancel]
    exact (Nat.le_mul_of_pos_right _ hpos).trans (Nat.le_add_right _ _)

lemma head?_dropWhile_ne {α : Type} [DecidableEq α] (a : α) (xs : List α) :
    (xs.dropWhile (· == a)).head? ≠ some a := by
  intro hhead
  have hnot := head?_dropWhile_not (fun x => x == a) xs
  rw [hhead] at hnot
  simp at hnot

lemma encodeBase58_of_not_fits {vch : Bytes} (h : ¬ EncodeFits vch) : ∃ e, encodeBase58 vch = .error e := by
  rw [encodeBase58, skipLeading_eq 0 0 (by decide) vch, zero_add]
  split_ifs with hzeroes
  · have hsize : ¬ (vch.dropWhile (· == 0)).length * 138 / 100 + 1 < 2 ^ 31 := fun hlt => h ⟨hzeroes, hlt⟩
    have hhead := head?_dropWhile_ne 0 vch
    rw [ok_bind]
    generalize vch.dropWhile (· == 0) = bytes at *
    dsimp only
    rw [encodedSize]
    split_ifs with hproduct
    · exact ⟨_, rfl⟩
    · rw [ok_bind, allocate]
      split_ifs with hneg
      · exact ⟨_, rfl⟩
      · -- The narrowed size is at most what a 31-bit number of digits needs, and there are more bytes.
        have hlarge : 2 ^ 32 ≤ bytes.length * 138 / 100 + 1 := by
          by_contra hlt
          exact hneg (narrow_neg (Nat.le_of_not_lt hsize) (Nat.lt_of_not_le hlt))
        have hne : bytes ≠ [] := by
          rintro rfl
          simp at hlarge
        have hdigits := narrow_lt (bytes.length * 138 / 100 + 1)
        have hover : 58 ^ (narrow (bytes.length * 138 / 100 + 1)).toNat ≤ bytesValue bytes :=
          calc 58 ^ (narrow (bytes.length * 138 / 100 + 1)).toNat
              ≤ 256 ^ (narrow (bytes.length * 138 / 100 + 1)).toNat := Nat.pow_le_pow_left (by decide) _
            _ ≤ 256 ^ (bytes.length - 1) := Nat.pow_le_pow_right (by decide) (by omega)
            _ ≤ bytesValue bytes := pow_le_bytesValue hne hhead
        rw [ok_bind, encodeBytes_overflows (holdsNumber_zeros (by decide) _) bytes (by
          rw [length_replicate]
          exact hover.trans (le_add_left _ _))]
        exact ⟨_, rfl⟩
  · exact ⟨_, rfl⟩

/-! ### Decoding -/

def onesPart (psz : Str) : ℕ := ((psz.dropWhile isspace).takeWhile (· == '1')).length

def afterOnes (psz : Str) : Str := (psz.dropWhile isspace).dropWhile (· == '1')

/-- The leading ones can be counted, the size of the buffer is not negative as an `int`, and the buffer has room
for the number. -/
structure BufferFits (psz : Str) : Prop where
  ones_lt : onesPart psz < 2 ^ 31
  size_nonneg : 0 ≤ narrow (decodedSize (afterOnes psz).length)
  value_lt : textValue (numberPart (afterOnes psz)) <
    256 ^ (narrow (decodedSize (afterOnes psz).length)).toNat

def decodedBytes (psz : Str) : Bytes :=
  List.replicate (onesPart psz) 0 ++
    (radixDigits 256 (textValue (numberPart (afterOnes psz)))).map UInt8.ofNat

lemma finishDecode_of_fits (zeroes : ℕ) (rest : Str) (hsize : 0 ≤ narrow (decodedSize rest.length))
    (hvalue : textValue (numberPart rest) < 256 ^ (narrow (decodedSize rest.length)).toNat) :
    (do
      let b256 ← allocate (narrow (decodedSize rest.length))
      let result ← decodeChars b256 0 rest
      return finishDecode zeroes result) =
      .ok (if (afterNumber rest).dropWhile isspace = [] then
        some (List.replicate zeroes 0 ++ (radixDigits 256 (textValue (numberPart rest))).map UInt8.ofNat)
        else none) := by
  rw [allocate_of_nonneg hsize, ok_bind]
  obtain ⟨buffer, length, hrun, hholds⟩ := decodeChars_fits
    (holdsNumber_zeros (by decide) (narrow (decodedSize rest.length)).toNat) rest (by simpa using hvalue)
  rw [hrun, ok_bind]
  rw [mul_zero, zero_add] at hholds
  unfold scanned
  cases hafter : afterNumber rest with
  | nil => simp [finishDecode, significant, hholds.digits_eq, pure, Except.pure]
  | cons c after =>
    cases hspace : isspace c with
    | false => simp [hspace, finishDecode, pure, Except.pure]
    | true =>
      simp only [head?_cons, Option.all_some, hspace, if_true, finishDecode, significant,
        hholds.digits_eq (by decide), ne_eq, ite_not, pure, Except.pure]

lemma decodeCString_of_fits {psz : Str} (h : BufferFits psz) :
    decodeCString psz = .ok
      (if (afterNumber (afterOnes psz)).dropWhile isspace = [] then some (decodedBytes psz) else none) := by
  have hones := h.ones_lt
  rw [onesPart] at hones
  rw [decodeCString, skipLeading_eq '1' 0 (by decide), zero_add, if_pos hones, ok_bind]
  exact finishDecode_of_fits (onesPart psz) (afterOnes psz) h.size_nonneg h.value_lt

lemma decodeCString_of_not_fits {psz : Str} (h : ¬ BufferFits psz) : ∃ e, decodeCString psz = .error e := by
  rw [decodeCString, skipLeading_eq '1' 0 (by decide), zero_add]
  split_ifs with hones
  · rw [ok_bind]
    dsimp only
    rw [allocate]
    split_ifs with hneg
    · exact ⟨_, rfl⟩
    · have hover : ¬ textValue (numberPart (afterOnes psz)) <
          256 ^ (narrow (decodedSize (afterOnes psz).length)).toNat := fun hlt =>
        h ⟨hones, not_lt.mp hneg, hlt⟩
      rw [ok_bind, decodeChars_overflows (holdsNumber_zeros (by decide) _) _ (by
        rw [length_replicate, mul_zero, zero_add]
        exact Nat.le_of_not_lt hover)]
      exact ⟨_, rfl⟩
  · exact ⟨_, rfl⟩

lemma takeWhile_append_of_neg {α : Type} {p : α → Bool} (xs : List α) {ys : List α}
    (h : ∀ y ∈ ys, p y = false) : (xs ++ ys).takeWhile p = xs.takeWhile p := by
  induction xs with
  | nil =>
    cases ys with
    | nil => rfl
    | cons y ys => simp [h y mem_cons_self]
  | cons x xs ih =>
    rw [cons_append, takeWhile_cons, takeWhile_cons, ih]

lemma dropWhile_append_of_neg {α : Type} {p : α → Bool} (xs : List α) {ys : List α}
    (h : ∀ y ∈ ys, p y = false) : (xs ++ ys).dropWhile p = xs.dropWhile p ++ ys := by
  induction xs with
  | nil =>
    cases ys with
    | nil => rfl
    | cons y ys => simp [h y mem_cons_self]
  | cons x xs ih =>
    rw [cons_append, dropWhile_cons, dropWhile_cons, ih]
    split_ifs <;> rfl

/-- Digits with white space before and behind them. -/
structure IsBase58Text (str before core after : Str) : Prop where
  eq : str = before ++ core ++ after
  before_space : ∀ c ∈ before, isspace c
  after_space : ∀ c ∈ after, isspace c
  core_mem : ∀ c ∈ core, c ∈ pszBase58

section Text
variable {str before core after : Str}

lemma IsBase58Text.dropWhile_isspace (h : IsBase58Text str before core after) :
    ∃ after', str.dropWhile isspace = core ++ after' ∧ ∀ c ∈ after', isspace c := by
  rw [h.eq, append_assoc, dropWhile_append_of_pos h.before_space]
  cases hcore : core with
  | nil =>
    refine ⟨[], ?_, by simp⟩
    rw [nil_append, nil_append]
    exact dropWhile_eq_nil_iff.mpr h.after_space
  | cons c cs =>
    refine ⟨after, ?_, h.after_space⟩
    have hc := isspace_of_mem (h.core_mem c (by rw [hcore]; exact mem_cons_self))
    rw [cons_append, dropWhile_cons, hc]
    rfl

lemma IsBase58Text.parts (h : IsBase58Text str before core after) :
    onesPart str = (core.takeWhile (· == '1')).length ∧
      numberPart (afterOnes str) = core.dropWhile (· == '1') ∧
      (afterNumber (afterOnes str)).dropWhile isspace = [] := by
  obtain ⟨after', hdrop, hspace⟩ := h.dropWhile_isspace
  have hmem : ∀ c ∈ after', decide (c ∈ pszBase58) = false := by
    intro c hc
    refine decide_eq_false fun hin => ?_
    exact Bool.false_ne_true ((isspace_of_mem hin).symm.trans (hspace c hc))
  have hone : ∀ c ∈ after', (c == '1') = false := by
    intro c hc
    refine beq_eq_false_iff_ne.mpr ?_
    rintro rfl
    exact absurd (hspace '1' hc) (by decide)
  have hcore : ∀ c ∈ core.dropWhile (· == '1'), decide (c ∈ pszBase58) = true := fun c hc =>
    decide_eq_true (h.core_mem c (dropWhile_subset _ hc))
  rw [onesPart, afterOnes, hdrop, takeWhile_append_of_neg core hone, dropWhile_append_of_neg core hone,
    numberPart, afterNumber, takeWhile_append_of_neg _ hmem, dropWhile_append_of_neg _ hmem,
    takeWhile_eq_self_iff.mpr hcore, dropWhile_eq_nil_iff.mpr hcore, nil_append]
  exact ⟨rfl, rfl, dropWhile_eq_nil_iff.mpr hspace⟩

lemma exists_isBase58Text (hend : (afterNumber (afterOnes str)).dropWhile isspace = []) :
    ∃ before core after, IsBase58Text str before core after := by
  refine ⟨str.takeWhile isspace, (str.dropWhile isspace).takeWhile (· == '1') ++ numberPart (afterOnes str),
    afterNumber (afterOnes str), ?_, fun c hc => mem_takeWhile_imp hc,
    dropWhile_eq_nil_iff.mp hend, ?_⟩
  · rw [append_assoc, append_assoc, numberPart, afterNumber, takeWhile_append_dropWhile, afterOnes,
      takeWhile_append_dropWhile, takeWhile_append_dropWhile]
  · intro c hc
    obtain hc | hc := mem_append.mp hc
    · have hone := mem_takeWhile_imp hc
      rw [beq_iff_eq.mp hone]
      decide
    · exact mem_of_mem_numberPart hc

lemma core_eq (hcore : ∀ c ∈ core, c ∈ pszBase58) :
    core = List.replicate (core.takeWhile (· == '1')).length '1' ++
      numberText (textValue (core.dropWhile (· == '1'))) := by
  have hmem : ∀ c ∈ core.dropWhile (· == '1'), c ∈ pszBase58 := fun c hc =>
    hcore c (dropWhile_subset _ hc)
  have hdigits : ∀ d ∈ (core.dropWhile (· == '1')).map base58Digit, d < 58 := by
    intro d hd
    obtain ⟨c, hc, rfl⟩ := mem_map.mp hd
    exact base58Digit_lt (hmem c hc)
  have hhead : ((core.dropWhile (· == '1')).map base58Digit).head? ≠ some 0 := by
    have hne := head?_dropWhile_ne '1' core
    intro hzero
    rw [head?_map, Option.map_eq_some_iff] at hzero
    obtain ⟨c, hc, hd⟩ := hzero
    have hcmem := hmem c (mem_of_mem_head? hc)
    rw [hc, (base58Digit_eq_zero_iff hcmem).mp hd] at hne
    exact hne rfl
  have hback : ((core.dropWhile (· == '1')).map base58Digit).map (fun d => pszBase58.getD d '\x00') =
      core.dropWhile (· == '1') := by
    rw [map_map]
    refine (map_congr_left fun c hc => ?_).trans (map_id _)
    exact getD_base58Digit (hmem c hc)
  have hones : core.takeWhile (· == '1') = List.replicate (core.takeWhile (· == '1')).length '1' :=
    eq_replicate_of_mem fun c hc => by
      have hone := mem_takeWhile_imp hc
      exact beq_iff_eq.mp hone
  rw [textValue, numberText, radixDigits_radixValue (by decide) hdigits hhead, hback, ← hones,
    takeWhile_append_dropWhile]

end Text

end MutableBitcoin
