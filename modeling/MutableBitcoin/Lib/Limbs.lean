import Mathlib.Algebra.BigOperators.Intervals
import Mathlib.Algebra.BigOperators.Ring.Finset
import Mathlib.Data.Nat.Bitwise
import Mathlib.Data.Nat.Size
import Mathlib.Tactic.Ring

/-!
# Numbers as lists of limbs

The number of a list of 32-bit limbs, the lowest first: its bits, its order, and the loop that writes sums
into the list and hands a carry from one limb to the next.
-/

namespace MutableBitcoin.Lib
open Nat

open Finset

def limbValue : List UInt32 → ℕ
  | [] => 0
  | a :: l => a.toNat + 2 ^ 32 * limbValue l

section Value

variable {l l' : List UInt32}

lemma limbValue_cons (a : UInt32) (l : List UInt32) : limbValue (a :: l) = a.toNat + 2 ^ 32 * limbValue l := rfl

lemma limbValue_lt (l : List UInt32) : limbValue l < 2 ^ (32 * l.length) := by
  induction l with
  | nil => exact one_pos
  | cons a l ih =>
    have ha := a.toNat_lt
    rw [limbValue_cons, List.length_cons, mul_add_one, add_comm (32 * l.length), pow_add]
    omega

lemma limbValue_append : limbValue (l ++ l') = limbValue l + 2 ^ (32 * l.length) * limbValue l' := by
  induction l with
  | nil => simp [limbValue]
  | cons a l ih =>
    rw [List.cons_append, limbValue_cons, ih, limbValue_cons, List.length_cons, mul_add_one,
      add_comm (32 * l.length), pow_add]
    ring

lemma limbValue_replicate_zero (n : ℕ) : limbValue (List.replicate n 0) = 0 := by
  induction n with
  | zero => rfl
  | succ n ih =>
    rw [List.replicate_succ, limbValue_cons, ih]
    rfl

lemma limbValue_eq_sum (l : List UInt32) :
    limbValue l = ∑ i ∈ range l.length, 2 ^ (32 * i) * (l.getD i 0).toNat := by
  induction l with
  | nil => rfl
  | cons a l ih =>
    have hshift : ∀ i, 2 ^ (32 * (i + 1)) * ((a :: l).getD (i + 1) 0).toNat =
        2 ^ 32 * (2 ^ (32 * i) * (l.getD i 0).toNat) := by
      intro i
      rw [List.getD_cons_succ, mul_add_one, add_comm (32 * i), pow_add, mul_assoc]
    rw [limbValue_cons, ih, List.length_cons, sum_range_succ', sum_congr rfl fun i _ => hshift i, ← mul_sum,
      mul_zero, pow_zero, one_mul, List.getD_cons_zero, add_comm]

lemma testBit_limbValue (l : List UInt32) (n : ℕ) :
    (limbValue l).testBit n = (l.getD (n / 32) 0).toNat.testBit (n % 32) := by
  induction l generalizing n with
  | nil => simp [limbValue]
  | cons a l ih =>
    have ha := a.toNat_lt
    rw [limbValue_cons, add_comm, testBit_two_pow_mul_add _ ha]
    split_ifs with hn
    · rw [div_eq_of_lt hn, mod_eq_of_lt hn]
      rfl
    · obtain ⟨k, rfl⟩ := Nat.exists_eq_add_of_le (not_lt.mp hn)
      rw [Nat.add_sub_cancel_left, ih, Nat.add_div_left _ (by decide), List.getD_cons_succ,
        add_mod_left]

lemma limbValue_injective (hlen : l.length = l'.length) (h : limbValue l = limbValue l') : l = l' := by
  induction l generalizing l' with
  | nil => exact (List.length_eq_zero_iff.mp hlen.symm).symm
  | cons a l ih =>
    cases l' with
    | nil => simp at hlen
    | cons b l' =>
      have ha := a.toNat_lt
      have hb := b.toNat_lt
      rw [limbValue_cons, limbValue_cons] at h
      have hhead : a = b := UInt32.toNat_inj.mp (by omega)
      rw [hhead, ih (Nat.succ.inj hlen) (by rw [hhead] at h; omega)]

lemma limbValue_take_succ {n : ℕ} (hn : n < l.length) :
    limbValue (l.take (n + 1)) = limbValue (l.take n) + 2 ^ (32 * n) * (l.getD n 0).toNat := by
  rw [List.take_succ_eq_append_getElem hn, limbValue_append, List.length_take, min_eq_left hn.le,
    List.getD_eq_getElem _ _ hn]
  simp [limbValue]

end Value

section CarryLoop

/-- The loop over `m` limbs from place `i` on: each sum is written `j` places further, and what does not fit
is carried. -/
def carryLoop (summand : List UInt32 → ℕ → UInt64) (j : ℕ) : ℕ → ℕ → UInt64 → List UInt32 → List UInt32
  | 0, _, _, pn => pn
  | m + 1, i, carry, pn =>
    let n := carry + summand pn i
    carryLoop summand j m (i + 1) (n >>> 32) (pn.set (i + j) (n &&& 0xffffffff).toUInt32)

variable {summand : List UInt32 → ℕ → UInt64} {j : ℕ}

lemma length_carryLoop (m i : ℕ) (carry : UInt64) (pn : List UInt32) :
    (carryLoop summand j m i carry pn).length = pn.length := by
  induction m generalizing i carry pn with
  | zero => rfl
  | succ m ih => rw [carryLoop, ih, List.length_set]

lemma toNat_low (n : UInt64) : (n &&& 0xffffffff).toUInt32.toNat = n.toNat % 2 ^ 32 := by
  have hmask : n.toNat &&& 4294967295 = n.toNat % 2 ^ 32 := and_two_pow_sub_one_eq_mod n.toNat 32
  rw [UInt64.toNat_toUInt32, UInt64.toNat_and, show (0xffffffff : UInt64).toNat = 4294967295 from rfl, hmask,
    mod_mod]

lemma toNat_high (n : UInt64) : (n >>> 32).toNat = n.toNat / 2 ^ 32 := by
  rw [UInt64.toNat_shiftRight, show (32 : UInt64).toNat % 64 = 32 from rfl, shiftRight_eq_div_pow]

variable (summand) in
lemma limbValue_carryLoop (s : ℕ → ℕ) {m i : ℕ} {carry : UInt64} {pn : List UInt32}
    (hlen : i + j + m = pn.length) (hcarry : carry.toNat < 2 ^ 32)
    (hs : ∀ pn' k, i ≤ k → (∀ q, k + j ≤ q → pn'.getD q 0 = pn.getD q 0) →
      (summand pn' k).toNat = s k ∧ s k ≤ 2 ^ 64 - 2 ^ 32) :
    limbValue (carryLoop summand j m i carry pn) =
      limbValue (pn.take (i + j)) +
        2 ^ (32 * (i + j)) * ((carry.toNat + ∑ k ∈ range m, 2 ^ (32 * k) * s (i + k)) % 2 ^ (32 * m)) := by
  induction m generalizing i carry pn with
  | zero =>
    rw [carryLoop, List.take_of_length_le (by omega)]
    simp [mod_one]
  | succ m ih =>
    have hi : i + j < pn.length := by omega
    obtain ⟨hsum, hbound⟩ := hs pn i le_rfl fun _ _ => rfl
    have hn : (carry + summand pn i).toNat = carry.toNat + s i := by
      rw [UInt64.toNat_add, hsum, mod_eq_of_lt (by omega)]
    rw [carryLoop, ih (by rw [List.length_set]; omega) (by rw [toNat_high, hn]; omega) ?later]
    case later =>
      intro pn' k hk hsame
      apply hs pn' k (by omega)
      intro q hq
      rw [hsame q hq, List.getD_eq_getElem?_getD, List.getElem?_set_ne (by omega), ← List.getD_eq_getElem?_getD]
    rw [show i + 1 + j = i + j + 1 by omega, limbValue_take_succ (by rw [List.length_set]; exact hi),
      List.take_set_of_le (le_refl _), toNat_high, hn]
    have hat : ((pn.set (i + j) (carry + summand pn i &&& 0xffffffff).toUInt32).getD (i + j) 0).toNat =
        (carry.toNat + s i) % 2 ^ 32 := by
      rw [List.getD_eq_getElem?_getD, List.getElem?_set_self hi, Option.getD_some, toNat_low, hn]
    have hshift : ∀ k, 2 ^ (32 * (k + 1)) * s (i + (k + 1)) = 2 ^ 32 * (2 ^ (32 * k) * s (i + 1 + k)) := by
      intro k
      rw [mul_add_one, add_comm (32 * k), pow_add, mul_assoc, show i + (k + 1) = i + 1 + k by omega]
    have hrest : ∑ k ∈ range (m + 1), 2 ^ (32 * k) * s (i + k) =
        s i + 2 ^ 32 * ∑ k ∈ range m, 2 ^ (32 * k) * s (i + 1 + k) := by
      rw [sum_range_succ', sum_congr rfl fun k _ => hshift k, ← mul_sum, mul_zero, pow_zero, one_mul,
        add_comm, add_zero i]
    rw [hat, hrest, ← add_assoc]
    generalize ∑ k ∈ range m, 2 ^ (32 * k) * s (i + 1 + k) = rest
    have hsplit : (carry.toNat + s i + 2 ^ 32 * rest) % 2 ^ (32 * (m + 1)) =
        (carry.toNat + s i) % 2 ^ 32 + 2 ^ 32 * (((carry.toNat + s i) / 2 ^ 32 + rest) % 2 ^ (32 * m)) := by
      rw [mul_add_one, add_comm (32 * m), pow_add, mod_mul, add_mul_mod_self_left,
        add_mul_div_left _ _ (by decide)]
    rw [hsplit, mul_add_one, pow_add]
    ring

end CarryLoop

end MutableBitcoin.Lib
