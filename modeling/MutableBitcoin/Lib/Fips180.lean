import MutableBitcoin.Lib.BlockStream
import MutableBitcoin.Lib.Sha256
import Mathlib.Data.Fin.VecNotation

/-!
# SHA-256 in the words of the standard

The functions of FIPS 180-4 on 32-bit words: the message schedule by its recurrence, the eight
working variables, and the hash value that takes one block of 64 bytes after the other.
-/

namespace MutableBitcoin.Lib.Fips180
open List

def rotr (n x : UInt32) : UInt32 := (x >>> n) ||| (x <<< (32 - n))

def ch (x y z : UInt32) : UInt32 := (x &&& y) ^^^ (~~~x &&& z)

def maj (x y z : UInt32) : UInt32 := (x &&& y) ^^^ (x &&& z) ^^^ (y &&& z)

def bigSigma0 (x : UInt32) : UInt32 := rotr 2 x ^^^ rotr 13 x ^^^ rotr 22 x

def bigSigma1 (x : UInt32) : UInt32 := rotr 6 x ^^^ rotr 11 x ^^^ rotr 25 x

def sigma0 (x : UInt32) : UInt32 := rotr 7 x ^^^ rotr 18 x ^^^ (x >>> 3)

def sigma1 (x : UInt32) : UInt32 := rotr 17 x ^^^ rotr 19 x ^^^ (x >>> 10)

def constant (t : ℕ) : UInt32 := UInt32.ofNat (Sha256.roundConstants.getD t 0)

def wordAt (block : List UInt8) (t : ℕ) : UInt32 :=
  UInt32.ofNat (leValue ((block.drop (4 * t)).take 4).reverse)

def schedule (m : ℕ → UInt32) (t : ℕ) : UInt32 :=
  if t < 16 then m t
  else sigma1 (schedule m (t - 2)) + schedule m (t - 7) + sigma0 (schedule m (t - 15)) +
    schedule m (t - 16)

/-- The eight words of a hash value, and of the working variables from `a` to `h`. -/
abbrev Words := Fin 8 → UInt32

scoped instance neZero_eight : NeZero 8 := ⟨by decide⟩

def round (k w : UInt32) (v : Words) : Words :=
  let t₁ := v 7 + bigSigma1 (v 4) + ch (v 4) (v 5) (v 6) + k + w
  let t₂ := bigSigma0 (v 0) + maj (v 0) (v 1) (v 2)
  ![t₁ + t₂, v 0, v 1, v 2, v 3 + t₁, v 4, v 5, v 6]

def rounds (w : ℕ → UInt32) (v : Words) : ℕ → Words
  | 0 => v
  | t + 1 => round (constant t) (w t) (rounds w v t)

def compress (h : Words) (block : List UInt8) : Words :=
  fun i => rounds (schedule (wordAt block)) h 64 i + h i

def initial : Words :=
  ![0x6a09e667, 0xbb67ae85, 0x3c6ef372, 0xa54ff53a, 0x510e527f, 0x9b05688c, 0x1f83d9ab, 0x5be0cd19]

def digest (h : Words) : List UInt8 :=
  (List.ofFn h).flatMap (fun w => (leBytes 4 w.toNat).reverse)

def hash (m : List UInt8) : List UInt8 :=
  digest (absorb 64 compress initial (m ++ Sha256.padding m.length)).1

lemma schedule_of_lt {m : ℕ → UInt32} {t : ℕ} (h : t < 16) : schedule m t = m t := by
  rw [schedule, if_pos h]

lemma schedule_of_le {m : ℕ → UInt32} {t : ℕ} (h : 16 ≤ t) :
    schedule m t = sigma1 (schedule m (t - 2)) + schedule m (t - 7) + sigma0 (schedule m (t - 15)) +
      schedule m (t - 16) := by
  conv_lhs => rw [schedule, if_neg (Nat.not_lt.mpr h)]

lemma wordAt_take {block : List UInt8} {t : ℕ} (h : t < 16) : wordAt (block.take 64) t = wordAt block t := by
  rw [wordAt, wordAt, drop_take, take_take, Nat.min_eq_left (by omega)]

lemma length_padding (n : ℕ) : (Sha256.padding n).length = 9 + (119 - n % 64) % 64 := by
  rw [Sha256.padding, length_cons, length_append, length_replicate, length_reverse,
    length_leBytes]
  omega

end MutableBitcoin.Lib.Fips180
