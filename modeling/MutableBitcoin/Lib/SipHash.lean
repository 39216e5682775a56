import MutableBitcoin.Lib.BlockStream
import MutableBitcoin.Lib.Numeral

/-!
# SipHash

The keyed hash SipHash-c-d of a byte string: the string is padded to words of eight little-endian
bytes, the last byte is its length modulo 256, and every word is mixed into four words of state.
-/

namespace MutableBitcoin.Lib.SipHash
open List Nat

/-- The four words of the state. -/
structure State where
  v0 : UInt64
  v1 : UInt64
  v2 : UInt64
  v3 : UInt64

def rotl (x b : UInt64) : UInt64 := (x <<< b) ||| (x >>> (64 - b))

def halfRound (a b c d s t : UInt64) : UInt64 × UInt64 × UInt64 × UInt64 :=
  let a := a + b
  let c := c + d
  (rotl a 32, rotl b s ^^^ a, c, rotl d t ^^^ c)

def sipRound (v : State) : State :=
  let (v0, v1, v2, v3) := halfRound v.v0 v.v1 v.v2 v.v3 13 16
  let (v2, v1, v0, v3) := halfRound v2 v1 v0 v3 17 21
  ⟨v0, v1, v2, v3⟩

def initial (k0 k1 : UInt64) : State :=
  ⟨k0 ^^^ 0x736f6d6570736575, k1 ^^^ 0x646f72616e646f6d, k0 ^^^ 0x6c7967656e657261,
    k1 ^^^ 0x7465646279746573⟩

def word (bs : List UInt8) : UInt64 := UInt64.ofNat (leValue bs)

/-- One word of the message, with `c` rounds. -/
def compress (c : ℕ) (v : State) (bs : List UInt8) : State :=
  let m := word bs
  let v := sipRound^[c] { v with v3 := v.v3 ^^^ m }
  { v with v0 := v.v0 ^^^ m }

def finish (d : ℕ) (v : State) : UInt64 :=
  let v := sipRound^[d] { v with v2 := v.v2 ^^^ 0xff }
  v.v0 ^^^ v.v1 ^^^ v.v2 ^^^ v.v3

def padded (m : List UInt8) : List UInt8 :=
  m ++ (List.replicate (7 - m.length % 8) 0 ++ [UInt8.ofNat m.length])

def hash (c d : ℕ) (k0 k1 : UInt64) (m : List UInt8) : UInt64 :=
  finish d (absorb 8 (compress c) (initial k0 k1) (padded m)).1

example : hash 2 4 0x0706050403020100 0x0f0e0d0c0b0a0908 [0, 1, 2, 3, 4, 5, 6, 7] = 0x93f5f5799a932462 := by
  decide +kernel

lemma word_append {bs : List UInt8} (h : bs.length < 8) (b : UInt8) :
    word (bs ++ [b]) = word bs ||| b.toUInt64 <<< UInt64.ofNat (8 * bs.length) := by
  have hlt := leValue_lt bs
  have hb := b.toNat_lt
  have hpow : (256 : ℕ) ^ bs.length = 2 ^ (8 * bs.length) := by
    rw [pow_mul]
    norm_num
  rw [hpow] at hlt
  have hbits : 2 ^ (8 * bs.length) ≤ 2 ^ 56 := Nat.pow_le_pow_right (by norm_num) (by omega)
  have hsum : leValue bs + 2 ^ (8 * bs.length) * b.toNat < 2 ^ 64 := by
    calc leValue bs + 2 ^ (8 * bs.length) * b.toNat
        < 2 ^ (8 * bs.length) * (b.toNat + 1) := by rw [mul_add, mul_one]; omega
      _ ≤ 2 ^ 56 * 256 := Nat.mul_le_mul hbits (by omega)
      _ = 2 ^ 64 := by norm_num
  have hshift : b.toNat <<< (8 * bs.length) % 2 ^ 64 = 2 ^ (8 * bs.length) * b.toNat := by
    rw [shiftLeft_eq, mul_comm, mod_eq_of_lt (by omega)]
  have hindex : (UInt64.ofNat (8 * bs.length)).toNat % 64 = 8 * bs.length := by
    rw [UInt64.toNat_ofNat']
    omega
  have hor : leValue bs ||| 2 ^ (8 * bs.length) * b.toNat =
      leValue bs + 2 ^ (8 * bs.length) * b.toNat := by
    rw [Nat.or_comm, ← Nat.two_pow_add_eq_or_of_lt hlt, Nat.add_comm]
  apply UInt64.toNat_inj.mp
  rw [UInt64.toNat_or, UInt64.toNat_shiftLeft, hindex, UInt8.toNat_toUInt64, hshift, word, word,
    UInt64.toNat_ofNat', UInt64.toNat_ofNat', mod_eq_of_lt (show leValue bs < 2 ^ 64 by omega),
    hor, leValue_append, leValue_cons, leValue_nil, mul_zero, add_zero, hpow,
    mod_eq_of_lt hsum]

lemma word_append_zeros (bs : List UInt8) (k : ℕ) : word (bs ++ List.replicate k 0) = word bs := by
  rw [word, leValue_append, leValue_replicate_zero, mul_zero, add_zero, word]

lemma word_leBytes (d : UInt64) : word (leBytes 8 d.toNat) = d := by
  rw [word, leValue_leBytes d.toNat_lt, UInt64.ofNat_toNat]

lemma hash_eq (c d : ℕ) (k0 k1 : UInt64) (m : List UInt8) :
    hash c d k0 k1 m =
      finish d (compress c (absorb 8 (compress c) (initial k0 k1) m).1
        ((absorb 8 (compress c) (initial k0 k1) m).2 ++
          (List.replicate (7 - m.length % 8) 0 ++ [UInt8.ofNat m.length]))) := by
  have hrest := length_absorb_snd (f := compress c) (n := 8) (initial k0 k1) m
  have hlength : ((absorb 8 (compress c) (initial k0 k1) m).2 ++
      (List.replicate (7 - m.length % 8) 0 ++ [UInt8.ofNat m.length])).length = 8 := by
    rw [length_append, length_append, length_replicate, length_singleton, hrest]
    omega
  rw [hash, padded, absorb_append (by norm_num), absorb_block (by norm_num) hlength]

end MutableBitcoin.Lib.SipHash
