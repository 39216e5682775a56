import Mathlib.Data.UInt

/-!
# Sets of numbers in bytes

A table of bytes stands for the set of the positions at which its bits are set, the lowest bit of a
byte first.
-/

namespace MutableBitcoin.Lib

def bitMask (n : ℕ) : UInt8 := 1 <<< UInt8.ofNat (n % 8)

/-- The positions whose bits are set. -/
def bitsOf (table : List UInt8) : Set ℕ := {n | ∃ b, table[n / 8]? = some b ∧ b &&& bitMask n ≠ 0}

lemma bitMask_and_bitMask (n m : ℕ) : bitMask n &&& bitMask m ≠ 0 ↔ n % 8 = m % 8 := by
  have hmasks : ∀ i < 8, ∀ j < 8, ((1 : UInt8) <<< UInt8.ofNat i) &&& (1 <<< UInt8.ofNat j) ≠ 0 ↔ i = j := by decide
  exact hmasks _ (Nat.mod_lt _ (by decide)) _ (Nat.mod_lt _ (by decide))

lemma or_bitMask_and_bitMask (b : UInt8) (n m : ℕ) :
    (b ||| bitMask n) &&& bitMask m ≠ 0 ↔ b &&& bitMask m ≠ 0 ∨ n % 8 = m % 8 := by
  have hdistrib : (b ||| bitMask n) &&& bitMask m = (b &&& bitMask m) ||| (bitMask n &&& bitMask m) := by
    refine UInt8.toBitVec_inj.mp ?_
    simp only [UInt8.toBitVec_and, UInt8.toBitVec_or]
    exact BitVec.and_or_distrib_right
  rw [hdistrib, ← bitMask_and_bitMask, Ne, UInt8.or_eq_zero_iff, not_and_or]

lemma mem_bitsOf {table : List UInt8} {n : ℕ} {b : UInt8} (h : table[n / 8]? = some b) :
    n ∈ bitsOf table ↔ b &&& bitMask n ≠ 0 := by
  constructor
  · rintro ⟨b', hget, hmask⟩
    rw [h] at hget
    rwa [Option.some.inj hget]
  · exact fun hmask => ⟨b, h, hmask⟩

lemma bitsOf_set {table : List UInt8} {n : ℕ} {b : UInt8} (h : table[n / 8]? = some b) :
    bitsOf (table.set (n / 8) (b ||| bitMask n)) = insert n (bitsOf table) := by
  have hlt : n / 8 < table.length := (List.getElem?_eq_some_iff.mp h).1
  ext m
  rw [Set.mem_insert_iff]
  by_cases hbyte : m / 8 = n / 8
  · have hget : (table.set (n / 8) (b ||| bitMask n))[m / 8]? = some (b ||| bitMask n) := by
      rw [hbyte, List.getElem?_set_self hlt]
    rw [mem_bitsOf hget, or_bitMask_and_bitMask, mem_bitsOf (hbyte ▸ h), or_comm]
    refine or_congr_left ⟨fun hmod => by omega, fun heq => by rw [heq]⟩
  · have hget : (table.set (n / 8) (b ||| bitMask n))[m / 8]? = table[m / 8]? := List.getElem?_set_ne (Ne.symm hbyte)
    have hne : m ≠ n := fun heq => hbyte (by rw [heq])
    rw [or_iff_right hne]
    refine exists_congr fun b' => ?_
    rw [hget]

end MutableBitcoin.Lib
