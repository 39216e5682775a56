import Mathlib.Data.List.Basic
import Mathlib.Data.Nat.ModEq

/-!
# Streams cut into blocks

A state takes one block of a fixed size after the other, and what does not fill a block is left over.
The state and the rest of a stream are those of its front continued with what follows.
-/

namespace MutableBitcoin.Lib
open List Nat

variable {σ α : Type} (n : ℕ) (f : σ → List α → σ)

def takeBlocks : ℕ → σ → List α → σ
  | 0, s, _ => s
  | k + 1, s, xs => takeBlocks k (f s (xs.take n)) (xs.drop n)

def absorb (s : σ) (xs : List α) : σ × List α :=
  (takeBlocks n f (xs.length / n) s xs, xs.drop (xs.length / n * n))

variable {n f}

lemma takeBlocks_zero (s : σ) (xs : List α) : takeBlocks n f 0 s xs = s := rfl

lemma takeBlocks_succ (k : ℕ) (s : σ) (xs : List α) :
    takeBlocks n f (k + 1) s xs = takeBlocks n f k (f s (xs.take n)) (xs.drop n) := rfl

lemma absorb_eq (s : σ) (xs : List α) :
    absorb n f s xs = (takeBlocks n f (xs.length / n) s xs, xs.drop (xs.length / n * n)) := rfl

lemma takeBlocks_append {k : ℕ} {xs : List α} (h : xs.length = k * n) (l : ℕ) (s : σ) (ys : List α) :
    takeBlocks n f (k + l) s (xs ++ ys) = takeBlocks n f l (takeBlocks n f k s xs) ys := by
  induction k generalizing s xs with
  | zero =>
    obtain rfl : xs = [] := length_eq_zero_iff.mp (by rw [h, zero_mul])
    rw [zero_add, nil_append, takeBlocks_zero]
  | succ k ih =>
    have hle : n ≤ xs.length := by
      rw [h, succ_mul]
      exact le_add_left n _
    have hrest : (xs.drop n).length = k * n := by
      rw [length_drop, h, Nat.succ_mul, Nat.add_sub_cancel]
    rw [succ_add, takeBlocks_succ, takeBlocks_succ, take_append_of_le_length hle,
      drop_append_of_le_length hle, ih hrest]

lemma takeBlocks_congr_front {k : ℕ} {xs : List α} (h : xs.length = k * n) (s : σ) (ys : List α) :
    takeBlocks n f k s (xs ++ ys) = takeBlocks n f k s xs := by
  have happend := takeBlocks_append (f := f) h 0 s ys
  rwa [add_zero, takeBlocks_zero] at happend

@[simp] lemma absorb_nil (s : σ) : absorb n f s [] = (s, []) := by
  rw [absorb_eq, length_nil, Nat.zero_div, takeBlocks_zero, Nat.zero_mul, drop_nil]

lemma absorb_of_lt {xs : List α} (h : xs.length < n) (s : σ) : absorb n f s xs = (s, xs) := by
  rw [absorb_eq, div_eq_of_lt h, takeBlocks_zero, zero_mul, drop_zero]

lemma length_absorb_snd (s : σ) (xs : List α) : (absorb n f s xs).2.length = xs.length % n := by
  rw [absorb_eq, length_drop, mod_def, mul_comm]

lemma absorb_of_length_eq (hn : 0 < n) {k : ℕ} {xs : List α} (h : xs.length = k * n) (s : σ) :
    absorb n f s xs = (takeBlocks n f k s xs, []) := by
  rw [absorb_eq, h, Nat.mul_div_cancel k hn, ← h, drop_length]

lemma absorb_block (hn : 0 < n) {xs : List α} (h : xs.length = n) (s : σ) :
    absorb n f s xs = (f s xs, []) := by
  rw [absorb_of_length_eq hn (k := 1) (by rw [h, one_mul]), takeBlocks_succ, takeBlocks_zero,
    take_of_length_le h.le]

lemma absorb_append (hn : 0 < n) (s : σ) (xs ys : List α) :
    absorb n f s (xs ++ ys) = absorb n f (absorb n f s xs).1 ((absorb n f s xs).2 ++ ys) := by
  obtain ⟨k, front, rest, hxs, hfront, hrest⟩ :
      ∃ k front rest, xs = front ++ rest ∧ front.length = k * n ∧ rest.length < n := by
    refine ⟨xs.length / n, xs.take (xs.length / n * n), xs.drop (xs.length / n * n),
      (take_append_drop _ _).symm, ?_, ?_⟩
    · rw [length_take, min_eq_left (div_mul_le_self _ _)]
    · have hmod := mod_lt xs.length hn
      rw [mod_def, mul_comm] at hmod
      rwa [length_drop]
  -- both sides read the front, then the rest with what follows
  have hdiv : ∀ zs : List α, (front ++ zs).length / n = k + zs.length / n := by
    intro zs
    rw [length_append, hfront, mul_comm, mul_add_div hn]
  have hdrop : ∀ (l : ℕ) (zs : List α), (front ++ zs).drop ((k + l) * n) = zs.drop (l * n) := by
    intro l zs
    rw [add_mul, ← hfront, drop_length_add_append]
  have habsorb : ∀ zs : List α,
      absorb n f s (front ++ zs) = absorb n f (takeBlocks n f k s front) zs := by
    intro zs
    rw [absorb_eq, absorb_eq, hdiv, takeBlocks_append hfront, hdrop]
  rw [hxs, append_assoc, habsorb, habsorb, absorb_of_lt hrest]

end MutableBitcoin.Lib
