import MutableBitcoin.Uint256
import MutableBitcoin.Lib.Regroup

/-!
# Base64 and Base32

`EncodeBase64`, `DecodeBase64`, `EncodeBase32` and `DecodeBase32` of `utilstrencodings.cpp`. A state machine packs
bits in each direction: `mode` counts the characters or bytes of a group, `left` has the bits that are left over.
-/

namespace MutableBitcoin
open List Nat

def pbase64 : Str := "ABCDEFGHIJKLMNOPQRSTUVWXYZabcdefghijklmnopqrstuvwxyz0123456789+/".toList

def pbase32 : Str := "abcdefghijklmnopqrstuvwxyz234567".toList

def nul : Char := '\x00'

/-- The variables of the loop that encodes. -/
structure Encoder where
  mode : ℕ
  left : ℕ
  strRet : Str

/-- The loop body of `EncodeBase64`. -/
def encode64Step (st : Encoder) (enc : ℕ) : Encoder :=
  match st.mode with
  | 0 => -- we have no bits
    { strRet := st.strRet ++ [pbase64.getD (enc >>> 2) nul]
      left := (enc &&& 3) <<< 4
      mode := 1 }
  | 1 => -- we have two bits
    { strRet := st.strRet ++ [pbase64.getD (st.left ||| enc >>> 4) nul]
      left := (enc &&& 15) <<< 2
      mode := 2 }
  | 2 => -- we have four bits
    { strRet := st.strRet ++ [pbase64.getD (st.left ||| enc >>> 6) nul, pbase64.getD (enc &&& 63) nul]
      left := st.left
      mode := 0 }
  | _ => st

def encode64Loop (pch : Bytes) : Encoder := pch.foldl (fun st b => encode64Step st b.toNat) ⟨0, 0, []⟩

def encodeBase64 (pch : Bytes) : Str :=
  let st := encode64Loop pch
  if st.mode ≠ 0 then
    st.strRet ++ [pbase64.getD st.left nul, '='] ++ (if st.mode = 1 then ['='] else [])
  else st.strRet

def decode64_table : List ℤ :=
  [-1, -1, -1, -1, -1, -1, -1, -1, -1, -1, -1, -1, -1, -1, -1, -1, -1, -1, -1, -1,
    -1, -1, -1, -1, -1, -1, -1, -1, -1, -1, -1, -1, -1, -1, -1, -1, -1, -1, -1, -1,
    -1, -1, -1, 62, -1, -1, -1, 63, 52, 53, 54, 55, 56, 57, 58, 59, 60, 61, -1, -1,
    -1, -1, -1, -1, -1,  0,  1,  2,  3,  4,  5,  6,  7,  8,  9, 10, 11, 12, 13, 14,
    15, 16, 17, 18, 19, 20, 21, 22, 23, 24, 25, -1, -1, -1, -1, -1, -1, 26, 27, 28,
    29, 30, 31, 32, 33, 34, 35, 36, 37, 38, 39, 40, 41, 42, 43, 44, 45, 46, 47, 48,
    49, 50, 51, -1, -1, -1, -1, -1, -1, -1, -1, -1, -1, -1, -1, -1, -1, -1, -1, -1,
    -1, -1, -1, -1, -1, -1, -1, -1, -1, -1, -1, -1, -1, -1, -1, -1, -1, -1, -1, -1,
    -1, -1, -1, -1, -1, -1, -1, -1, -1, -1, -1, -1, -1, -1, -1, -1, -1, -1, -1, -1,
    -1, -1, -1, -1, -1, -1, -1, -1, -1, -1, -1, -1, -1, -1, -1, -1, -1, -1, -1, -1,
    -1, -1, -1, -1, -1, -1, -1, -1, -1, -1, -1, -1, -1, -1, -1, -1, -1, -1, -1, -1,
    -1, -1, -1, -1, -1, -1, -1, -1, -1, -1, -1, -1, -1, -1, -1, -1, -1, -1, -1, -1,
    -1, -1, -1, -1, -1, -1, -1, -1, -1, -1, -1, -1, -1, -1, -1, -1]

/-- The variables of the loop that decodes. -/
structure Decoder where
  mode : ℕ
  left : ℕ
  vchRet : Bytes

/-- The loop body of `DecodeBase64`. -/
def decode64Step (st : Decoder) (dec : ℕ) : Decoder :=
  match st.mode with
  | 0 => -- we have no bits and get 6
    { st with left := dec, mode := 1 }
  | 1 => -- we have 6 bits and keep 4
    { vchRet := st.vchRet ++ [UInt8.ofNat (st.left <<< 2 ||| dec >>> 4)], left := dec &&& 15, mode := 2 }
  | 2 => -- we have 4 bits and get 6, we keep 2
    { vchRet := st.vchRet ++ [UInt8.ofNat (st.left <<< 4 ||| dec >>> 2)], left := dec &&& 3, mode := 3 }
  | 3 => -- we have 2 bits and get 6
    { st with vchRet := st.vchRet ++ [UInt8.ofNat (st.left <<< 6 ||| dec)], mode := 0 }
  | _ => st

/-- The loop over the characters that a table knows, with the place where it stops. The end of the text stands for
the character that ends it, which no table knows. -/
def decodeLoop (table : List ℤ) (step : Decoder → ℕ → Decoder) : Decoder → Str → Decoder × Str
  | st, [] => (st, [])
  | st, c :: p =>
    let dec := table.getD c.toNat (-1)
    if dec = -1 then (st, c :: p) else decodeLoop table step (step st dec.toNat) p

def charAt (p : Str) (i : ℕ) : Char := p.getD i nul

/-- The decoded bytes, and `*pfInvalid`. -/
def decodeBase64 (p : Str) : Bytes × Bool :=
  let (st, p) := decodeLoop decode64_table decode64Step ⟨0, 0, []⟩ p
  (st.vchRet, match st.mode with
    | 0 => false
    | 1 => true
    | 2 => -- 4n+2 base64 characters processed: require '=='
      st.left != 0 || charAt p 0 != '=' || charAt p 1 != '=' ||
        decode64_table.getD (charAt p 2).toNat (-1) != -1
    | 3 => -- 4n+3 base64 characters processed: require '='
      st.left != 0 || charAt p 0 != '=' || decode64_table.getD (charAt p 1).toNat (-1) != -1
    | _ => false)

/-- The loop body of `EncodeBase32`. -/
def encode32Step (st : Encoder) (enc : ℕ) : Encoder :=
  match st.mode with
  | 0 => -- we have no bits
    { strRet := st.strRet ++ [pbase32.getD (enc >>> 3) nul]
      left := (enc &&& 7) <<< 2
      mode := 1 }
  | 1 => -- we have three bits
    { strRet := st.strRet ++ [pbase32.getD (st.left ||| enc >>> 6) nul, pbase32.getD (enc >>> 1 &&& 31) nul]
      left := (enc &&& 1) <<< 4
      mode := 2 }
  | 2 => -- we have one bit
    { strRet := st.strRet ++ [pbase32.getD (st.left ||| enc >>> 4) nul]
      left := (enc &&& 15) <<< 1
      mode := 3 }
  | 3 => -- we have four bits
    { strRet := st.strRet ++ [pbase32.getD (st.left ||| enc >>> 7) nul, pbase32.getD (enc >>> 2 &&& 31) nul]
      left := (enc &&& 3) <<< 3
      mode := 4 }
  | 4 => -- we have two bits
    { strRet := st.strRet ++ [pbase32.getD (st.left ||| enc >>> 5) nul, pbase32.getD (enc &&& 31) nul]
      left := st.left
      mode := 0 }
  | _ => st

def encode32Loop (pch : Bytes) : Encoder := pch.foldl (fun st b => encode32Step st b.toNat) ⟨0, 0, []⟩

def nPadding : List ℕ := [0, 6, 4, 3, 1]

def encodeBase32 (pch : Bytes) : Str :=
  let st := encode32Loop pch
  if st.mode ≠ 0 then
    st.strRet ++ [pbase32.getD st.left nul] ++ List.replicate (nPadding.getD st.mode 0) '='
  else st.strRet

def decode32_table : List ℤ :=
  [-1, -1, -1, -1, -1, -1, -1, -1, -1, -1, -1, -1, -1, -1, -1, -1, -1, -1, -1, -1,
    -1, -1, -1, -1, -1, -1, -1, -1, -1, -1, -1, -1, -1, -1, -1, -1, -1, -1, -1, -1,
    -1, -1, -1, -1, -1, -1, -1, -1, -1, -1, 26, 27, 28, 29, 30, 31, -1, -1, -1, -1,
    -1, -1, -1, -1, -1,  0,  1,  2,  3,  4,  5,  6,  7,  8,  9, 10, 11, 12, 13, 14,
    15, 16, 17, 18, 19, 20, 21, 22, 23, 24, 25, -1, -1, -1, -1, -1, -1,  0,  1,  2,
     3,  4,  5,  6,  7,  8,  9, 10, 11, 12, 13, 14, 15, 16, 17, 18, 19, 20, 21, 22,
    23, 24, 25, -1, -1, -1, -1, -1, -1, -1, -1, -1, -1, -1, -1, -1, -1, -1, -1, -1,
    -1, -1, -1, -1, -1, -1, -1, -1, -1, -1, -1, -1, -1, -1, -1, -1, -1, -1, -1, -1,
    -1, -1, -1, -1, -1, -1, -1, -1, -1, -1, -1, -1, -1, -1, -1, -1, -1, -1, -1, -1,
    -1, -1, -1, -1, -1, -1, -1, -1, -1, -1, -1, -1, -1, -1, -1, -1, -1, -1, -1, -1,
    -1, -1, -1, -1, -1, -1, -1, -1, -1, -1, -1, -1, -1, -1, -1, -1, -1, -1, -1, -1,
    -1, -1, -1, -1, -1, -1, -1, -1, -1, -1, -1, -1, -1, -1, -1, -1, -1, -1, -1, -1,
    -1, -1, -1, -1, -1, -1, -1, -1, -1, -1, -1, -1, -1, -1, -1, -1]

/-- The loop body of `DecodeBase32`. -/
def decode32Step (st : Decoder) (dec : ℕ) : Decoder :=
  match st.mode with
  | 0 => -- we have no bits and get 5
    { st with left := dec, mode := 1 }
  | 1 => -- we have 5 bits and keep 2
    { vchRet := st.vchRet ++ [UInt8.ofNat (st.left <<< 3 ||| dec >>> 2)], left := dec &&& 3, mode := 2 }
  | 2 => -- we have 2 bits and keep 7
    { st with left := st.left <<< 5 ||| dec, mode := 3 }
  | 3 => -- we have 7 bits and keep 4
    { vchRet := st.vchRet ++ [UInt8.ofNat (st.left <<< 1 ||| dec >>> 4)], left := dec &&& 15, mode := 4 }
  | 4 => -- we have 4 bits, and keep 1
    { vchRet := st.vchRet ++ [UInt8.ofNat (st.left <<< 4 ||| dec >>> 1)], left := dec &&& 1, mode := 5 }
  | 5 => -- we have 1 bit, and keep 6
    { st with left := st.left <<< 5 ||| dec, mode := 6 }
  | 6 => -- we have 6 bits, and keep 3
    { vchRet := st.vchRet ++ [UInt8.ofNat (st.left <<< 2 ||| dec >>> 3)], left := dec &&& 7, mode := 7 }
  | 7 => -- we have 3 bits, and keep 0
    { st with vchRet := st.vchRet ++ [UInt8.ofNat (st.left <<< 5 ||| dec)], mode := 0 }
  | _ => st

/-- The decoded bytes, and `*pfInvalid`. -/
def decodeBase32 (p : Str) : Bytes × Bool :=
  let (st, p) := decodeLoop decode32_table decode32Step ⟨0, 0, []⟩ p
  (st.vchRet, match st.mode with
    | 0 => false
    | 1 | 3 | 6 => true
    | 2 => -- 8n+2 base32 characters processed: require '======'
      st.left != 0 || charAt p 0 != '=' || charAt p 1 != '=' || charAt p 2 != '=' || charAt p 3 != '=' ||
        charAt p 4 != '=' || charAt p 5 != '=' || decode32_table.getD (charAt p 6).toNat (-1) != -1
    | 4 => -- 8n+4 base32 characters processed: require '===='
      st.left != 0 || charAt p 0 != '=' || charAt p 1 != '=' || charAt p 2 != '=' || charAt p 3 != '=' ||
        decode32_table.getD (charAt p 4).toNat (-1) != -1
    | 5 => -- 8n+5 base32 characters processed: require '==='
      st.left != 0 || charAt p 0 != '=' || charAt p 1 != '=' || charAt p 2 != '=' ||
        decode32_table.getD (charAt p 3).toNat (-1) != -1
    | 7 => -- 8n+7 base32 characters processed: require '='
      st.left != 0 || charAt p 0 != '=' || decode32_table.getD (charAt p 1).toNat (-1) != -1
    | _ => false)

end MutableBitcoin

/-!
## Base64 and Base32 as padded text

What a mode means is the number of bits that are left over.
-/

namespace MutableBitcoin
open Lib List Nat

/-! ### Characters and digits -/

def tableDigit (table : List ℤ) (c : Char) : Option ℕ :=
  let dec := table.getD c.toNat (-1)
  if dec = -1 then none else some dec.toNat

lemma tableDigit_of_large {table : List ℤ} (htable : table.length = 256) {c : Char} (hc : 256 ≤ c.toNat) :
    tableDigit table c = none := by
  have hout : table.getD c.toNat (-1) = -1 := by
    rw [getD_eq_getElem?_getD, getElem?_eq_none (htable.trans_le hc), Option.getD_none]
  rw [tableDigit, hout]
  rfl

lemma forall_char {P : Char → Prop} (hbyte : ∀ n < 256, P (Char.ofNat n)) (hlarge : ∀ c, 256 ≤ c.toNat → P c)
    (c : Char) : P c := by
  by_cases hc : c.toNat < 256
  · rw [← Char.ofNat_toNat c]
    exact hbyte _ hc
  · exact hlarge c (Nat.le_of_not_lt hc)

lemma toLower_of_large {c : Char} (hc : 256 ≤ c.toNat) : c.toLower = c := by
  have hnot : ¬ (c.val ≥ 'A'.val ∧ c.val ≤ 'Z'.val) := by
    rintro ⟨-, hle⟩
    have hnat := UInt32.le_iff_toNat_le.mp hle
    have hz : 'Z'.val.toNat = 90 := rfl
    have hval : c.val.toNat = c.toNat := rfl
    omega
  exact dif_neg hnot

lemma decodeLoop_eq (table : List ℤ) (step : Decoder → ℕ → Decoder) (st : Decoder) (p : Str) :
    decodeLoop table step st p =
      ((digitsOf (tableDigit table) p).foldl step st, afterKnown (tableDigit table) p) := by
  induction p generalizing st with
  | nil => rfl
  | cons c p ih =>
    have htable : tableDigit table c =
        if table.getD c.toNat (-1) = -1 then none else some (table.getD c.toNat (-1)).toNat := rfl
    rw [decodeLoop]
    by_cases hdec : table.getD c.toNat (-1) = -1
    · rw [if_pos hdec] at htable
      rw [if_pos hdec]
      simp [digitsOf, knownPart, afterKnown, htable]
    · rw [if_neg hdec] at htable
      rw [if_neg hdec, ih]
      simp [digitsOf, knownPart, afterKnown, htable]

/-! ### Bits -/

lemma or_eq_add {k x : ℕ} (hx : x < 2 ^ k) (a : ℕ) : a * 2 ^ k ||| x = a * 2 ^ k + x := by
  rw [mul_comm, ← two_pow_add_eq_or_of_lt hx]

lemma and_mask (k n : ℕ) : n &&& (2 ^ k - 1) = n % 2 ^ k := and_two_pow_sub_one_eq_mod n k

lemma high_bits {w k d : ℕ} (hk : k ≤ w) (hd : d < 2 ^ w) (left : ℕ) :
    left * 2 ^ (w - k) ||| d >>> k = (left * 2 ^ w + d) / 2 ^ k := by
  have hpow : 2 ^ w = 2 ^ (w - k) * 2 ^ k := by rw [← pow_add, Nat.sub_add_cancel hk]
  have hlt : d >>> k < 2 ^ (w - k) := by
    rw [shiftRight_eq_div_pow]
    refine Nat.div_lt_of_lt_mul ?_
    rwa [Nat.mul_comm, ← hpow]
  rw [or_eq_add hlt, shiftRight_eq_div_pow, hpow, ← mul_assoc, add_comm, add_comm _ d,
    Nat.add_mul_div_right _ _ (Nat.two_pow_pos k)]

lemma low_bits {w k : ℕ} (hk : k ≤ w) (left d : ℕ) :
    (left * 2 ^ w + d) % 2 ^ k = d &&& (2 ^ k - 1) := by
  have hpow : 2 ^ w = 2 ^ (w - k) * 2 ^ k := by rw [← pow_add, Nat.sub_add_cancel hk]
  rw [hpow, ← mul_assoc, mul_add_mod_self_right, and_mask]

lemma middle_bits {w b m : ℕ} (hk : b + m ≤ w) (left d : ℕ) :
    (left * 2 ^ w + d) % 2 ^ (b + m) / 2 ^ b = d >>> b &&& (2 ^ m - 1) := by
  rw [low_bits hk, and_mask, and_mask, pow_add, mod_mul_right_div_self, shiftRight_eq_div_pow]

lemma last_bits {w b m : ℕ} (hk : b + m ≤ w) (left d : ℕ) :
    (left * 2 ^ w + d) % 2 ^ (b + m) % 2 ^ b = d &&& (2 ^ b - 1) := by
  rw [low_bits hk, and_mask, and_mask, pow_add, mod_mul_right_mod]

/-! ### Encoding -/

section Encoding
variable {w : ℕ} {char : ℕ → Char} {bitsOf : List ℕ} {st st' : Encoder} {ds es : List ℕ} {value : ℕ}

/-- The encoder has read the bytes `ds`. Its characters stand for digits of `w` bits, and what is left over is kept
in the upper bits of the next digit. -/
def Packs (w : ℕ) (char : ℕ → Char) (bitsOf : List ℕ) (st : Encoder) (ds : List ℕ) : Prop :=
  ∃ es left, st.strRet = es.map char ∧ st.mode < bitsOf.length ∧
    Regrouped 8 w ds es left (bitsOf.getD st.mode 0) ∧
    (st.mode ≠ 0 → st.left = left * 2 ^ (w - bitsOf.getD st.mode 0))

lemma packs_one {left have' enc : ℕ} (stored bits : ℕ) (hregrouped : Regrouped 8 w ds es left have')
    (henc : enc < 2 ^ 8) (hsum : have' + 8 = bits + w) (hle : bits ≤ 8) (hstr : st.strRet = es.map char)
    (hstored : stored = left * 2 ^ (8 - bits)) (hmode : st'.mode < bitsOf.length) (hbits : bitsOf.getD st'.mode 0 = bits)
    (hchar : st'.strRet = st.strRet ++ [char (stored ||| enc >>> bits)])
    (hleft : st'.left = (enc &&& (2 ^ bits - 1)) <<< (w - bits)) : Packs w char bitsOf st' (ds ++ [enc]) := by
  have hread := hregrouped.read henc
  rw [hsum] at hread
  refine ⟨es ++ [(left * 2 ^ 8 + enc) / 2 ^ bits], (left * 2 ^ 8 + enc) % 2 ^ bits, ?_, hmode, ?_, fun _ => ?_⟩
  · rw [hchar, hstr, hstored, high_bits hle henc, ← map_singleton, ← map_append]
  · rw [hbits]
    exact hread.cut bits
  · rw [hleft, hbits, low_bits hle, shiftLeft_eq]

lemma packs_two {left have' stored enc : ℕ} (bits : ℕ) (hregrouped : Regrouped 8 w ds es left have')
    (henc : enc < 2 ^ 8) (hsum : have' + 8 = bits + w + w) (hle : bits + w ≤ 8) (hstr : st.strRet = es.map char)
    (hstored : stored = left * 2 ^ (8 - (bits + w))) (hmode : st'.mode < bitsOf.length)
    (hbits : bitsOf.getD st'.mode 0 = bits)
    (hchar : st'.strRet = st.strRet ++ [char (stored ||| enc >>> (bits + w)), char (enc >>> bits &&& (2 ^ w - 1))])
    (hleft : st'.mode ≠ 0 → st'.left = (enc &&& (2 ^ bits - 1)) <<< (w - bits)) :
    Packs w char bitsOf st' (ds ++ [enc]) := by
  have hread := hregrouped.read henc
  rw [hsum] at hread
  refine ⟨es ++ [(left * 2 ^ 8 + enc) / 2 ^ (bits + w), (left * 2 ^ 8 + enc) % 2 ^ (bits + w) / 2 ^ bits],
    (left * 2 ^ 8 + enc) % 2 ^ (bits + w) % 2 ^ bits, ?_, hmode, ?_, fun hne => ?_⟩
  · rw [hchar, hstr, hstored, high_bits hle henc, ← middle_bits hle left, map_append]
    rfl
  · rw [hbits]
    have htwo := (hread.cut (bits + w)).cut bits
    rwa [append_assoc, singleton_append] at htwo
  · rw [hleft hne, hbits, last_bits hle, shiftLeft_eq]

end Encoding

def char64 (e : ℕ) : Char := pbase64.getD e nul

def encodeBits64 : List ℕ := [0, 2, 4]

lemma Packs.step64 {st : Encoder} {ds : List ℕ} (h : Packs 6 char64 encodeBits64 st ds) {enc : ℕ}
    (henc : enc < 2 ^ 8) : Packs 6 char64 encodeBits64 (encode64Step st enc) (ds ++ [enc]) := by
  obtain ⟨es, left, hstr, hmode, hregrouped, hleft⟩ := h
  obtain ⟨mode, stored, strRet⟩ := st
  have hmode' : mode < 3 := hmode
  interval_cases mode
  · obtain rfl : left = 0 := lt_one_iff.mp hregrouped.left_lt
    exact packs_one 0 2 hregrouped henc rfl (by decide) hstr rfl (by decide : 1 < 3) rfl
      (by rw [zero_or]; rfl) rfl
  · exact packs_one _ 4 hregrouped henc rfl (by decide) hstr (hleft (by simp)) (by decide : 2 < 3) rfl rfl rfl
  · exact packs_two 0 hregrouped henc rfl (by decide) hstr (hleft (by simp)) (by decide : 0 < 3) rfl rfl
      fun hne => absurd rfl hne

def char32 (e : ℕ) : Char := pbase32.getD e nul

def encodeBits32 : List ℕ := [0, 3, 1, 4, 2]

lemma Packs.step32 {st : Encoder} {ds : List ℕ} (h : Packs 5 char32 encodeBits32 st ds) {enc : ℕ}
    (henc : enc < 2 ^ 8) : Packs 5 char32 encodeBits32 (encode32Step st enc) (ds ++ [enc]) := by
  obtain ⟨es, left, hstr, hmode, hregrouped, hleft⟩ := h
  obtain ⟨mode, stored, strRet⟩ := st
  have hmode' : mode < 5 := hmode
  interval_cases mode
  · obtain rfl : left = 0 := lt_one_iff.mp hregrouped.left_lt
    exact packs_one 0 3 hregrouped henc rfl (by decide) hstr rfl (by decide : 1 < 5) rfl
      (by rw [zero_or]; rfl) rfl
  · exact packs_two 1 hregrouped henc rfl (by decide) hstr (hleft (by simp)) (by decide : 2 < 5) rfl rfl fun _ => rfl
  · exact packs_one _ 4 hregrouped henc rfl (by decide) hstr (hleft (by simp)) (by decide : 3 < 5) rfl rfl rfl
  · exact packs_two 2 hregrouped henc rfl (by decide) hstr (hleft (by simp)) (by decide : 4 < 5) rfl rfl fun _ => rfl
  · exact packs_two 0 hregrouped henc rfl (by decide) hstr (hleft (by simp)) (by decide : 0 < 5) rfl rfl
      fun hne => absurd rfl hne

lemma packs_foldl {w : ℕ} {char : ℕ → Char} {bitsOf : List ℕ} {step : Encoder → ℕ → Encoder}
    (hpos : 0 < bitsOf.length) (hzero : bitsOf.getD 0 0 = 0)
    (hstep : ∀ st ds enc, Packs w char bitsOf st ds → enc < 2 ^ 8 →
      Packs w char bitsOf (step st enc) (ds ++ [enc])) (bytes : Bytes) :
    Packs w char bitsOf (bytes.foldl (fun st b => step st b.toNat) ⟨0, 0, []⟩) (bytes.map UInt8.toNat) := by
  induction bytes using List.reverseRecOn with
  | nil =>
    have hregrouped : Regrouped 8 w [] [] 0 (bitsOf.getD 0 0) := by
      rw [hzero]
      exact regrouped_nil 8 w
    exact ⟨[], 0, rfl, hpos, hregrouped, fun hne => absurd rfl hne⟩
  | append_singleton bytes b ih =>
    rw [foldl_append, map_append]
    exact hstep _ _ _ ih b.toNat_lt

lemma Packs.exists_padded {w : ℕ} {char : ℕ → Char} {bitsOf : List ℕ} {st : Encoder} {ds : List ℕ}
    (h : Packs w char bitsOf st ds) (hw : 0 < w) (hzero : bitsOf.getD 0 0 = 0)
    (hbits : ∀ mode < bitsOf.length, mode ≠ 0 → 0 < bitsOf.getD mode 0 ∧ bitsOf.getD mode 0 < w) :
    ∃ es k, Padded 8 w ds es k ∧ (∀ e ∈ es, e < 2 ^ w) ∧
      ((st.mode = 0 ∧ k = 0 ∧ st.strRet = es.map char) ∨
        (st.mode ≠ 0 ∧ k = w - bitsOf.getD st.mode 0 ∧ st.strRet ++ [char st.left] = es.map char)) := by
  obtain ⟨es, left, hstr, hmode, hregrouped, hleft⟩ := h
  by_cases hst : st.mode = 0
  · rw [hst, hzero] at hregrouped
    exact ⟨es, 0, hregrouped.padded_zero hw, hregrouped.digit_lt, .inl ⟨hst, rfl, hstr⟩⟩
  · obtain ⟨hpos, hlt⟩ := hbits st.mode hmode hst
    have hpadded := hregrouped.padded hpos (Nat.add_sub_cancel' hlt.le)
    refine ⟨_, _, hpadded, fun e he => ?_, .inr ⟨hst, rfl, ?_⟩⟩
    · obtain he | he := mem_append.mp he
      · exact hregrouped.digit_lt e he
      · rw [mem_singleton.mp he]
        have hpow : 2 ^ w = 2 ^ bitsOf.getD st.mode 0 * 2 ^ (w - bitsOf.getD st.mode 0) := by
          rw [← pow_add, Nat.add_sub_cancel' hlt.le]
        rw [hpow]
        exact Nat.mul_lt_mul_of_pos_right hregrouped.left_lt (Nat.two_pow_pos _)
    · rw [map_append, hstr, hleft hst]
      rfl

def pads64 (k : ℕ) : ℕ := [0, 0, 1, 0, 2].getD k 0

lemma encodeBase64_spec (bytes : Bytes) : ∃ es k, Padded 8 6 (bytes.map UInt8.toNat) es k ∧
    (∀ e ∈ es, e < 2 ^ 6) ∧ encodeBase64 bytes = es.map char64 ++ List.replicate (pads64 k) '=' := by
  have hencodes : Packs 6 char64 encodeBits64 (encode64Loop bytes) (bytes.map UInt8.toNat) :=
    packs_foldl (by decide) rfl (fun st ds enc h henc => h.step64 henc) bytes
  have hmode : (encode64Loop bytes).mode < 3 := by
    obtain ⟨es, left, -, hmode, -⟩ := hencodes
    exact hmode
  rw [encodeBase64]
  obtain ⟨es, k, hpadded, hes, ⟨hzero, rfl, hstr⟩ | ⟨hne, rfl, hstr⟩⟩ :=
    hencodes.exists_padded (by decide) rfl (by decide)
  · refine ⟨es, 0, hpadded, hes, ?_⟩
    rw [if_neg (not_not.mpr hzero), hstr]
    exact (append_nil _).symm
  · refine ⟨es, _, hpadded, hes, ?_⟩
    rw [if_pos hne, ← hstr]
    obtain hone | htwo : (encode64Loop bytes).mode = 1 ∨ (encode64Loop bytes).mode = 2 := by omega
    · simp only [hone]
      simp [char64, pads64, encodeBits64, replicate_succ]
    · simp only [htwo]
      simp [char64, pads64, encodeBits64]

def pads32 (k : ℕ) : ℕ := [0, 3, 6, 1, 4].getD k 0

lemma encodeBase32_spec (bytes : Bytes) : ∃ es k, Padded 8 5 (bytes.map UInt8.toNat) es k ∧
    (∀ e ∈ es, e < 2 ^ 5) ∧ encodeBase32 bytes = es.map char32 ++ List.replicate (pads32 k) '=' := by
  have hencodes : Packs 5 char32 encodeBits32 (encode32Loop bytes) (bytes.map UInt8.toNat) :=
    packs_foldl (by decide) rfl (fun st ds enc h henc => h.step32 henc) bytes
  have hmode : (encode32Loop bytes).mode < 5 := by
    obtain ⟨es, left, -, hmode, -⟩ := hencodes
    exact hmode
  rw [encodeBase32]
  obtain ⟨es, k, hpadded, hes, ⟨hzero, rfl, hstr⟩ | ⟨hne, rfl, hstr⟩⟩ :=
    hencodes.exists_padded (by decide) rfl (by decide)
  · refine ⟨es, 0, hpadded, hes, ?_⟩
    rw [if_neg (not_not.mpr hzero), hstr]
    exact (append_nil _).symm
  · refine ⟨es, _, hpadded, hes, ?_⟩
    have hpads : ∀ mode < 5, nPadding.getD mode 0 = pads32 (5 - encodeBits32.getD mode 0) := by decide
    rw [if_pos hne, ← hstr, hpads _ hmode]
    rfl

/-! ### Decoding -/

/-- The decoder has read the digits `es`. In the first mode nothing is left over. -/
def Unpacks (w : ℕ) (bitsOf : List ℕ) (st : Decoder) (es : List ℕ) : Prop :=
  ∃ left, st.mode < bitsOf.length ∧
    Regrouped w 8 es (st.vchRet.map UInt8.toNat) left (bitsOf.getD st.mode 0) ∧
    (st.mode ≠ 0 → st.left = left)

section Decoding
variable {w : ℕ} {bitsOf : List ℕ} {st st' : Decoder} {es : List ℕ} {value : ℕ}

lemma unpacks_none (hread : Regrouped w 8 es (st.vchRet.map UInt8.toNat) value (bitsOf.getD st'.mode 0))
    (hmode : st'.mode < bitsOf.length) (hret : st'.vchRet = st.vchRet) (hleft : st'.left = value) :
    Unpacks w bitsOf st' es :=
  ⟨value, hmode, by rw [hret]; exact hread, fun _ => hleft⟩

lemma unpacks_one {left have' dec : ℕ} (bits : ℕ)
    (hregrouped : Regrouped w 8 es (st.vchRet.map UInt8.toNat) left have') (hdec : dec < 2 ^ w)
    (hsum : have' + w = bits + 8) (hle : bits ≤ w) (hmode : st'.mode < bitsOf.length)
    (hbits : bitsOf.getD st'.mode 0 = bits)
    (hret : st'.vchRet = st.vchRet ++ [UInt8.ofNat (left <<< (w - bits) ||| dec >>> bits)])
    (hleft : st'.mode ≠ 0 → st'.left = dec &&& (2 ^ bits - 1)) : Unpacks w bitsOf st' (es ++ [dec]) := by
  have hread := hregrouped.read hdec
  rw [hsum] at hread
  have hcut := hread.cut bits
  have hbyte := hcut.digit_lt _ (mem_append_right _ (mem_singleton_self _))
  refine ⟨(left * 2 ^ w + dec) % 2 ^ bits, hmode, ?_, fun hne => (hleft hne).trans (low_bits hle left dec).symm⟩
  rw [hbits, hret, shiftLeft_eq, high_bits hle hdec, map_append, map_singleton, UInt8.toNat_ofNat',
    mod_eq_of_lt hbyte]
  exact hcut

end Decoding

def decodeBits64 : List ℕ := [0, 6, 4, 2]

lemma Unpacks.step64 {st : Decoder} {es : List ℕ} (h : Unpacks 6 decodeBits64 st es) {dec : ℕ}
    (hdec : dec < 2 ^ 6) : Unpacks 6 decodeBits64 (decode64Step st dec) (es ++ [dec]) := by
  obtain ⟨left, hmode, hregrouped, hleft⟩ := h
  obtain ⟨mode, stored, vchRet⟩ := st
  have hread := hregrouped.read hdec
  have hmode' : mode < 4 := hmode
  interval_cases mode
  · obtain rfl : left = 0 := lt_one_iff.mp hregrouped.left_lt
    rw [zero_mul, zero_add] at hread
    exact unpacks_none hread (by decide : 1 < 4) rfl rfl
  · obtain rfl : stored = left := hleft (by simp)
    exact unpacks_one 4 hregrouped hdec rfl (by decide) (by decide : 2 < 4) rfl rfl fun _ => rfl
  · obtain rfl : stored = left := hleft (by simp)
    exact unpacks_one 2 hregrouped hdec rfl (by decide) (by decide : 3 < 4) rfl rfl fun _ => rfl
  · obtain rfl : stored = left := hleft (by simp)
    exact unpacks_one 0 hregrouped hdec rfl (by decide) (by decide : 0 < 4) rfl rfl fun hne => absurd rfl hne

def decodeBits32 : List ℕ := [0, 5, 2, 7, 4, 1, 6, 3]

lemma Unpacks.step32 {st : Decoder} {es : List ℕ} (h : Unpacks 5 decodeBits32 st es) {dec : ℕ}
    (hdec : dec < 2 ^ 5) : Unpacks 5 decodeBits32 (decode32Step st dec) (es ++ [dec]) := by
  obtain ⟨left, hmode, hregrouped, hleft⟩ := h
  obtain ⟨mode, stored, vchRet⟩ := st
  have hread := hregrouped.read hdec
  have hmode' : mode < 8 := hmode
  interval_cases mode
  · obtain rfl : left = 0 := lt_one_iff.mp hregrouped.left_lt
    rw [zero_mul, zero_add] at hread
    exact unpacks_none hread (by decide : 1 < 8) rfl rfl
  · obtain rfl : stored = left := hleft (by simp)
    exact unpacks_one 2 hregrouped hdec rfl (by decide) (by decide : 2 < 8) rfl rfl fun _ => rfl
  · obtain rfl : stored = left := hleft (by simp)
    refine unpacks_none hread (by decide : 3 < 8) rfl ?_
    rw [← or_eq_add hdec, ← shiftLeft_eq]
    rfl
  · obtain rfl : stored = left := hleft (by simp)
    exact unpacks_one 4 hregrouped hdec rfl (by decide) (by decide : 4 < 8) rfl rfl fun _ => rfl
  · obtain rfl : stored = left := hleft (by simp)
    exact unpacks_one 1 hregrouped hdec rfl (by decide) (by decide : 5 < 8) rfl rfl fun _ => rfl
  · obtain rfl : stored = left := hleft (by simp)
    refine unpacks_none hread (by decide : 6 < 8) rfl ?_
    rw [← or_eq_add hdec, ← shiftLeft_eq]
    rfl
  · obtain rfl : stored = left := hleft (by simp)
    exact unpacks_one 3 hregrouped hdec rfl (by decide) (by decide : 7 < 8) rfl rfl fun _ => rfl
  · obtain rfl : stored = left := hleft (by simp)
    exact unpacks_one 0 hregrouped hdec rfl (by decide) (by decide : 0 < 8) rfl rfl fun hne => absurd rfl hne

lemma unpacks_foldl {w : ℕ} {bitsOf : List ℕ} {step : Decoder → ℕ → Decoder} (hpos : 0 < bitsOf.length)
    (hzero : bitsOf.getD 0 0 = 0)
    (hstep : ∀ st es dec, Unpacks w bitsOf st es → dec < 2 ^ w → Unpacks w bitsOf (step st dec) (es ++ [dec]))
    (es : List ℕ) (hes : ∀ e ∈ es, e < 2 ^ w) : Unpacks w bitsOf (es.foldl step ⟨0, 0, []⟩) es := by
  induction es using List.reverseRecOn with
  | nil =>
    have hregrouped : Regrouped w 8 [] [] 0 (bitsOf.getD 0 0) := by
      rw [hzero]
      exact regrouped_nil w 8
    exact ⟨0, hpos, hregrouped, fun hne => absurd rfl hne⟩
  | append_singleton es e ih =>
    rw [foldl_append]
    obtain ⟨hes, he⟩ := forall_mem_append.mp hes
    exact hstep _ _ _ (ih hes) (he e (mem_singleton_self e))

lemma exists_unpacked {w : ℕ} {bitsOf : List ℕ} {table : List ℤ}
    {step : Decoder → ℕ → Decoder} (digit : Char → Option ℕ) (hdigit : tableDigit table = digit) (hlt : ∀ c e, digit c = some e → e < 2 ^ w)
    (hpos : 0 < bitsOf.length) (hzero : bitsOf.getD 0 0 = 0)
    (hstep : ∀ st es dec, Unpacks w bitsOf st es → dec < 2 ^ w → Unpacks w bitsOf (step st dec) (es ++ [dec]))
    (s : Str) : ∃ st, decodeLoop table step ⟨0, 0, []⟩ s = (st, afterKnown digit s) ∧
      Unpacks w bitsOf st (digitsOf digit s) := by
  subst hdigit
  refine ⟨_, decodeLoop_eq table step _ s, unpacks_foldl hpos hzero hstep _ fun e he => ?_⟩
  obtain ⟨c, -, hc⟩ := mem_filterMap.mp he
  exact hlt c e hc

lemma tableDigit_eq_none_iff {table : List ℤ} {c : Char} :
    tableDigit table c = none ↔ table.getD c.toNat (-1) = -1 := by
  rw [tableDigit]
  split_ifs with h
  · simp only [h]
  · simp only [h]

lemma padding_iff {table : List ℤ} (hnul : tableDigit table nul = none) (n : ℕ) (p : Str) :
    ((∀ i < n, charAt p i = '=') ∧ tableDigit table (charAt p n) = none) ↔
      ∃ rest, p = List.replicate n '=' ++ rest ∧ StopsAt (tableDigit table) rest := by
  induction n generalizing p with
  | zero =>
    cases p with
    | nil => simp [charAt, StopsAt, hnul]
    | cons c p => simp [charAt, StopsAt]
  | succ n ih =>
    cases p with
    | nil =>
      have hfirst : charAt [] 0 ≠ '=' := by decide
      constructor
      · rintro ⟨h, -⟩
        exact absurd (h 0 (succ_pos n)) hfirst
      · rintro ⟨rest, h, -⟩
        cases h
    | cons c p =>
      have hshift : ∀ i, charAt (c :: p) (i + 1) = charAt p i := fun i => rfl
      rw [forall_lt_succ_left, hshift]
      simp only [hshift, replicate_succ, cons_append, List.cons.injEq]
      constructor
      · rintro ⟨⟨hc, hp⟩, hstop⟩
        obtain ⟨rest, hrest, hstops⟩ := (ih p).mp ⟨hp, hstop⟩
        exact ⟨rest, ⟨hc, hrest⟩, hstops⟩
      · rintro ⟨rest, ⟨hc, hrest⟩, hstops⟩
        obtain ⟨hp, hstop⟩ := (ih p).mpr ⟨rest, hrest, hstops⟩
        exact ⟨⟨hc, hp⟩, hstop⟩

lemma padding_check {table : List ℤ} (hnul : tableDigit table nul = none) {n left bits w : ℕ} {p : Str}
    {flag : Bool} (hbits : bits < w)
    (hflag : flag = false ↔ left = 0 ∧ (∀ i < n, charAt p i = '=') ∧ table.getD (charAt p n).toNat (-1) = -1) :
    flag = false ↔ left = 0 ∧ bits < w ∧
      ∃ rest, p = List.replicate n '=' ++ rest ∧ StopsAt (tableDigit table) rest := by
  rw [hflag, and_iff_right hbits, ← tableDigit_eq_none_iff, padding_iff hnul]

def digit64 : Char → Option ℕ := tableDigit decode64_table

def digit32 : Char → Option ℕ := tableDigit decode32_table

def digitOk (w : ℕ) (table : List ℤ) (char : ℕ → Char) (fold : Char → Char) (c : Char) : Bool :=
  decide (tableDigit table (fold c) = tableDigit table c) && decide (fold c = '=' → c = '=') &&
    (tableDigit table c).all fun e => decide (e < 2 ^ w ∧ char e = fold c)

lemma digitOk_char {w : ℕ} {table : List ℤ} {char : ℕ → Char} {fold : Char → Char} (htable : table.length = 256)
    (hfold : ∀ c : Char, 256 ≤ c.toNat → fold c = c)
    (hbytes : (List.range 256).all fun n => digitOk w table char fold (Char.ofNat n)) (c : Char) :
    digitOk w table char fold c = true := by
  refine forall_char (P := fun c => digitOk w table char fold c = true) (fun n hn => ?_) (fun c hc => ?_) c
  · exact all_eq_true.mp hbytes n (mem_range.mpr hn)
  · simp [digitOk, hfold c hc, tableDigit_of_large htable hc]

lemma digitOk_iff {w : ℕ} {table : List ℤ} {char : ℕ → Char} {fold : Char → Char} {c : Char} :
    digitOk w table char fold c = true ↔ tableDigit table (fold c) = tableDigit table c ∧
      (fold c = '=' → c = '=') ∧ ∀ e, tableDigit table c = some e → e < 2 ^ w ∧ char e = fold c := by
  simp only [digitOk, Bool.and_eq_true, decide_eq_true_eq, Option.all_eq_true, and_assoc]

set_option maxRecDepth 2000 in
lemma length_decode64_table : decode64_table.length = 256 := rfl

set_option maxRecDepth 2000 in
lemma length_decode32_table : decode32_table.length = 256 := rfl

lemma digitOk64 (c : Char) : digitOk 6 decode64_table char64 id c = true :=
  digitOk_char length_decode64_table (fun _ _ => rfl) (by decide +kernel) c

lemma digitOk32 (c : Char) : digitOk 5 decode32_table char32 Char.toLower c = true :=
  digitOk_char length_decode32_table (fun _ hc => toLower_of_large hc) (by decide +kernel) c

/-! ### Codecs -/

lemma digit64_lt (c : Char) (e : ℕ) (hc : digit64 c = some e) : e < 2 ^ 6 := ((digitOk_iff.mp (digitOk64 c)).2.2 e hc).1

lemma digit32_lt (c : Char) (e : ℕ) (hc : digit32 c = some e) : e < 2 ^ 5 := ((digitOk_iff.mp (digitOk32 c)).2.2 e hc).1

lemma decodeBase64_spec (s : Str) : ∃ left bits,
    Regrouped 6 8 (digitsOf digit64 s) ((decodeBase64 s).1.map UInt8.toNat) left bits ∧ bits < 8 ∧
    ((decodeBase64 s).2 = false ↔ left = 0 ∧ bits < 6 ∧
      ∃ rest, afterKnown digit64 s = List.replicate (pads64 bits) '=' ++ rest ∧ StopsAt digit64 rest) := by
  have hnul : tableDigit decode64_table nul = none := rfl
  have hstops : StopsAt digit64 (afterKnown digit64 s) := stopsAt_afterKnown s
  obtain ⟨⟨mode, stored, vchRet⟩, hloop, left, hmode, hregrouped, hleft⟩ :=
    exists_unpacked digit64 rfl digit64_lt (by decide) rfl (fun st es dec h hdec => h.step64 hdec) s
  rw [decodeBase64, hloop]
  have hmode' : mode < 4 := hmode
  have hlt := hregrouped.left_lt
  refine ⟨left, _, hregrouped, ?_, ?_⟩
  · exact (by decide : ∀ mode < 4, decodeBits64.getD mode 0 < 8) _ hmode
  interval_cases mode
  · have hrest : ∃ rest, afterKnown digit64 s = List.replicate 0 '=' ++ rest ∧ StopsAt digit64 rest :=
      ⟨_, rfl, hstops⟩
    exact iff_of_true rfl ⟨lt_one_iff.mp hlt, succ_pos 5, hrest⟩
  · exact iff_of_false Bool.true_eq_false.mp fun h => lt_irrefl 6 h.2.1
  · obtain rfl : stored = left := hleft (by simp)
    refine padding_check hnul (n := 2) (by decide : 4 < 6) ?_
    simp only [Bool.or_eq_false_iff, bne_eq_false_iff_eq, forall_lt_succ_right, not_lt_zero,
      IsEmpty.forall_iff, forall_const, true_and, and_assoc]
  · obtain rfl : stored = left := hleft (by simp)
    refine padding_check hnul (n := 1) (by decide : 2 < 6) ?_
    simp only [Bool.or_eq_false_iff, bne_eq_false_iff_eq, forall_lt_succ_right, not_lt_zero,
      IsEmpty.forall_iff, forall_const, true_and, and_assoc]

lemma decodeBase32_spec (s : Str) : ∃ left bits,
    Regrouped 5 8 (digitsOf digit32 s) ((decodeBase32 s).1.map UInt8.toNat) left bits ∧ bits < 8 ∧
    ((decodeBase32 s).2 = false ↔ left = 0 ∧ bits < 5 ∧
      ∃ rest, afterKnown digit32 s = List.replicate (pads32 bits) '=' ++ rest ∧ StopsAt digit32 rest) := by
  have hnul : tableDigit decode32_table nul = none := rfl
  have hstops : StopsAt digit32 (afterKnown digit32 s) := stopsAt_afterKnown s
  obtain ⟨⟨mode, stored, vchRet⟩, hloop, left, hmode, hregrouped, hleft⟩ :=
    exists_unpacked digit32 rfl digit32_lt (by decide) rfl (fun st es dec h hdec => h.step32 hdec) s
  rw [decodeBase32, hloop]
  have hmode' : mode < 8 := hmode
  have hlt := hregrouped.left_lt
  refine ⟨left, _, hregrouped, ?_, ?_⟩
  · exact (by decide : ∀ mode < 8, decodeBits32.getD mode 0 < 8) _ hmode
  interval_cases mode
  · have hrest : ∃ rest, afterKnown digit32 s = List.replicate 0 '=' ++ rest ∧ StopsAt digit32 rest :=
      ⟨_, rfl, hstops⟩
    exact iff_of_true rfl ⟨lt_one_iff.mp hlt, succ_pos 4, hrest⟩
  · exact iff_of_false Bool.true_eq_false.mp fun h => absurd h.2.1 (lt_irrefl 5)
  · obtain rfl : stored = left := hleft (by simp)
    refine padding_check hnul (n := 6) (by decide : 2 < 5) ?_
    simp only [Bool.or_eq_false_iff, bne_eq_false_iff_eq, forall_lt_succ_right, not_lt_zero,
      IsEmpty.forall_iff, forall_const, true_and, and_assoc]
  · exact iff_of_false Bool.true_eq_false.mp fun h => absurd h.2.1 (by decide : ¬ 7 < 5)
  · obtain rfl : stored = left := hleft (by simp)
    refine padding_check hnul (n := 4) (by decide : 4 < 5) ?_
    simp only [Bool.or_eq_false_iff, bne_eq_false_iff_eq, forall_lt_succ_right, not_lt_zero,
      IsEmpty.forall_iff, forall_const, true_and, and_assoc]
  · obtain rfl : stored = left := hleft (by simp)
    refine padding_check hnul (n := 3) (by decide : 1 < 5) ?_
    simp only [Bool.or_eq_false_iff, bne_eq_false_iff_eq, forall_lt_succ_right, not_lt_zero,
      IsEmpty.forall_iff, forall_const, true_and, and_assoc]
  · exact iff_of_false Bool.true_eq_false.mp fun h => absurd h.2.1 (by decide : ¬ 6 < 5)
  · obtain rfl : stored = left := hleft (by simp)
    refine padding_check hnul (n := 1) (by decide : 3 < 5) ?_
    simp only [Bool.or_eq_false_iff, bne_eq_false_iff_eq, forall_lt_succ_right, not_lt_zero,
      IsEmpty.forall_iff, forall_const, true_and, and_assoc]

def base64 : PaddedCodec where
  width := 6
  width_le := by decide
  char := char64
  digit := digit64
  fold := id
  pads := pads64
  encode := encodeBase64
  decode := decodeBase64
  digit_char := by decide +kernel
  digit_lt := digit64_lt
  char_digit := fun c e hc => ((digitOk_iff.mp (digitOk64 c)).2.2 e hc).2
  digit_fold := fun _ => rfl
  digit_pad := by decide +kernel
  fold_pad_iff := fun _ => Iff.rfl
  encode_spec := encodeBase64_spec
  decode_spec := decodeBase64_spec

/-- `DecodeBase32` does not tell the case of a letter. -/
def base32 : PaddedCodec where
  width := 5
  width_le := by decide
  char := char32
  digit := digit32
  fold := Char.toLower
  pads := pads32
  encode := encodeBase32
  decode := decodeBase32
  digit_char := by decide +kernel
  digit_lt := digit32_lt
  char_digit := fun c e hc => ((digitOk_iff.mp (digitOk32 c)).2.2 e hc).2
  digit_fold := fun c => (digitOk_iff.mp (digitOk32 c)).1
  digit_pad := by decide +kernel
  fold_pad_iff := fun c => ⟨(digitOk_iff.mp (digitOk32 c)).2.1, fun hc => by rw [hc]; decide⟩
  encode_spec := encodeBase32_spec
  decode_spec := decodeBase32_spec

/-- An encoding, up to case, with something behind it that is no digit. -/
def EncodingWithTrailer (encode : Bytes → Str) (alphabet : Str) (fold : Char → Char) (s : Str) : Prop :=
  ∃ text rest v, s = text ++ rest ∧ text.map fold = encode v ∧ ∃ c ∈ rest.head?, fold c ∉ alphabet

lemma digit64_eq_none_iff (c : Char) : digit64 c = none ↔ c ∉ pbase64 :=
  base64.digit_eq_none_iff (by decide +kernel) c

lemma digit32_eq_none_iff (c : Char) : digit32 c = none ↔ c.toLower ∉ pbase32 :=
  base32.digit_eq_none_iff (by decide +kernel) c

/-- Decoding inverts encoding. The decoders accept encodings, but of what follows an encoding they only reject the
characters of the alphabet. -/
theorem decode_accepts_iff (v : Bytes) (s : Str) :
    (decodeBase64 (encodeBase64 v) = (v, false) ∧ decodeBase32 (encodeBase32 v) = (v, false)) ∧
    (((decodeBase64 s).2 = false ↔ s = encodeBase64 (decodeBase64 s).1) ↔
        ¬ EncodingWithTrailer encodeBase64 pbase64 id s) ∧
      (((decodeBase32 s).2 = false ↔ s.map Char.toLower = encodeBase32 (decodeBase32 s).1) ↔
        ¬ EncodingWithTrailer encodeBase32 pbase32 Char.toLower s) := by
  refine ⟨⟨base64.decode_encode v, base32.decode_encode v⟩, ?_, ?_⟩
  · have haccepts := base64.accepts_iff s
    have htrailer : base64.HasTrailer s ↔ EncodingWithTrailer encodeBase64 pbase64 id s := by
      simp only [PaddedCodec.HasTrailer, EncodingWithTrailer, base64, digit64_eq_none_iff, id]
    rw [htrailer] at haccepts
    have hfold : s.map base64.fold = s := map_id s
    rwa [hfold] at haccepts
  · have haccepts := base32.accepts_iff s
    have htrailer : base32.HasTrailer s ↔ EncodingWithTrailer encodeBase32 pbase32 Char.toLower s := by
      simp only [PaddedCodec.HasTrailer, EncodingWithTrailer, base32, digit32_eq_none_iff]
    rwa [htrailer] at haccepts

/-- A character behind the padding goes unnoticed. -/
theorem decodeBase64_ignoresTrailer :
    (decodeBase64 "Zm9vYg==!".toList).2 = false ∧
      "Zm9vYg==!".toList ≠ encodeBase64 (decodeBase64 "Zm9vYg==!".toList).1 := by
  decide +kernel

end MutableBitcoin
