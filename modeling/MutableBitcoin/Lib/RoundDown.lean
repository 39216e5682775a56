import Mathlib.Order.Bounds.Basic
import Mathlib.Tactic.Ring

/-!
# Rounding down to a format

A format is the set of values that can be written. A number is rounded down to the greatest value of the format
that does not exceed it, and in a format of mantissas and exponents this drops the low digits.
-/

namespace MutableBitcoin.Lib
open Nat

section Rounding

variable {α : Type*} [PartialOrder α] {S : Set α} {n m x y : α}

/-- The greatest value of `S` up to `n`. -/
def RoundsDown (S : Set α) (n x : α) : Prop := IsGreatest {v | v ∈ S ∧ v ≤ n} x

lemma RoundsDown.mono (hx : RoundsDown S n x) (hy : RoundsDown S m y) (h : n ≤ m) : x ≤ y :=
  hy.2 ⟨hx.1.1, hx.1.2.trans h⟩

lemma RoundsDown.eq_of_mem (hx : RoundsDown S n x) (hn : n ∈ S) : x = n :=
  le_antisymm hx.1.2 (hx.2 ⟨hn, le_rfl⟩)

end Rounding

/-- The numbers with a mantissa below `M` and an exponent. -/
def scaledFormat (b M : ℕ) : Set ℕ := {v | ∃ m < M, ∃ k, v = m * b ^ k}

lemma roundsDown_div_mul {b h n k : ℕ} (hb : 0 < b) (hhigh : n / b ^ k < h * b) (hlow : k = 0 ∨ h ≤ n / b ^ k) :
    RoundsDown (scaledFormat b (h * b)) n (n / b ^ k * b ^ k) := by
  refine ⟨⟨⟨_, hhigh, k, rfl⟩, div_mul_le_self n (b ^ k)⟩, ?_⟩
  rintro v ⟨⟨m, hm, j, rfl⟩, hle⟩
  rcases lt_or_ge j k with hjk | hkj
  · obtain rfl | hlow := hlow
    · exact absurd hjk (not_lt_zero j)
    calc m * b ^ j ≤ h * b * b ^ j := mul_le_mul_right _ hm.le
      _ = h * b ^ (j + 1) := by ring
      _ ≤ h * b ^ k := Nat.mul_le_mul_left _ (Nat.pow_le_pow_right hb hjk)
      _ ≤ n / b ^ k * b ^ k := mul_le_mul_right _ hlow
  · obtain ⟨d, rfl⟩ := Nat.exists_eq_add_of_le hkj
    have hsplit : m * b ^ (k + d) = m * b ^ d * b ^ k := by ring
    rw [hsplit] at hle ⊢
    exact Nat.mul_le_mul_right _ ((Nat.le_div_iff_mul_le (Nat.pow_pos hb)).mpr hle)

end MutableBitcoin.Lib
