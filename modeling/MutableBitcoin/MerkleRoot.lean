import MutableBitcoin.Lib.MerkleTree
import MutableBitcoin.Block

/-!
# The root that `MerkleComputation` computes

The array `inner` holds the full nodes to the left of the next leaf, and `mutated` tells whether two
full siblings were equal. The final sweep compares nothing.
-/

namespace MutableBitcoin
open Lib Nat Bool List

def leafAt (leaves : List Uint256) (j : ℕ) : Uint256 := leaves.getD j (BaseBlob.null 32)

section LowBit

variable {count fuel level : ℕ}

lemma le_lowBit (count fuel level : ℕ) : level ≤ lowBit count fuel level := by
  induction fuel generalizing level with
  | zero => exact le_rfl
  | succ fuel ih =>
    unfold lowBit
    split_ifs with hbit
    · exact le_rfl
    · exact (le_succ level).trans (@ih (level + 1))

lemma testBit_of_lt_lowBit (count fuel : ℕ) {i : ℕ} (hi : level ≤ i) (hlt : i < lowBit count fuel level) :
    count.testBit i = false := by
  induction fuel generalizing level with
  | zero => exact absurd hlt (not_lt.mpr hi)
  | succ fuel ih =>
    unfold lowBit at hlt
    split_ifs at hlt with hbit
    · exact absurd hlt (not_lt.mpr hi)
    · obtain rfl | hne := eq_or_ne i level
      · simpa using hbit
      · exact ih (by omega) hlt

lemma testBit_lowBit (fuel : ℕ) {k : ℕ} (hk : level ≤ k) (hfuel : k ≤ level + fuel) (hbit : count.testBit k = true) :
    count.testBit (lowBit count fuel level) = true := by
  induction fuel generalizing level with
  | zero =>
    obtain rfl : k = level := by omega
    exact hbit
  | succ fuel ih =>
    unfold lowBit
    split_ifs with hlevel
    · exact hlevel
    · have hne : k ≠ level := fun h => hlevel (h ▸ hbit)
      exact ih (by omega) (by omega)

lemma lowBit_le (fuel : ℕ) {k : ℕ} (hk : level ≤ k) (hbit : count.testBit k = true) :
    lowBit count fuel level ≤ k := by
  by_contra hlt
  have hzero := testBit_of_lt_lowBit count fuel hk (not_le.mp hlt)
  rw [hbit] at hzero
  cases hzero

lemma mergeLevels_eq (sha256 : Bytes → Uint256) {inner node : ℕ → Uint256} (mutated : Bool)
    (hstep : ∀ i, level ≤ i → i < lowBit count fuel level →
      merklePair sha256 (inner i) (node i) = node (i + 1)) :
    ∃ mutated', mergeLevels sha256 inner count fuel level (node level) mutated =
        (lowBit count fuel level, node (lowBit count fuel level), mutated') ∧
      (mutated' = true ↔ mutated = true ∨
        ∃ i, level ≤ i ∧ i < lowBit count fuel level ∧ inner i = node i) := by
  induction fuel generalizing level mutated with
  | zero =>
    refine ⟨mutated, rfl, ?_⟩
    simp [lowBit]
    omega
  | succ fuel ih =>
    unfold mergeLevels lowBit
    by_cases hbit : count.testBit level = true
    · rw [if_pos hbit, if_pos hbit]
      refine ⟨mutated, rfl, ?_⟩
      simp
      omega
    · rw [if_neg hbit, if_neg hbit]
      have hlow : lowBit count (fuel + 1) level = lowBit count fuel (level + 1) := by
        rw [lowBit, if_neg hbit]
      have hle := le_lowBit count fuel (level + 1)
      rw [hstep level le_rfl (by omega)]
      obtain ⟨mutated', heq, hiff⟩ := @ih (level + 1) (mutated || decide (inner level = node level))
        (fun i hi hlt => hstep i (by omega) (by omega))
      refine ⟨mutated', heq, ?_⟩
      rw [hiff, or_eq_true, decide_eq_true_eq]
      constructor
      · rintro ((hm | hlevel) | ⟨i, hi, hlt, hi'⟩)
        · exact Or.inl hm
        · exact Or.inr ⟨level, le_rfl, hle, hlevel⟩
        · exact Or.inr ⟨i, by omega, hlt, hi'⟩
      · rintro (hm | ⟨i, hi, hlt, hi'⟩)
        · exact Or.inl (Or.inl hm)
        · obtain rfl | hne := eq_or_ne i level
          · exact Or.inl (Or.inr hi')
          · exact Or.inr ⟨i, by omega, hlt, hi'⟩

end LowBit

section Bits

lemma testBit_iff {n i : ℕ} : n.testBit i = true ↔ n / 2 ^ i % 2 = 1 := by
  rw [testBit_eq_decide_div_mod_eq, decide_eq_true_eq]

lemma exists_mul_of_lowBits {n k : ℕ} (h : ∀ i < k, n.testBit i = false) : ∃ q, n = q * 2 ^ k := by
  have hmod : n % 2 ^ k = 0 := by
    apply eq_of_testBit_eq
    intro i
    rw [testBit_mod_two_pow, zero_testBit]
    by_cases hi : i < k
    · rw [h i hi, Bool.and_false]
    · rw [decide_eq_false hi, Bool.false_and]
  obtain ⟨q, hq⟩ := dvd_of_mod_eq_zero hmod
  exact ⟨q, by rw [hq, mul_comm]⟩

lemma exists_testBit {n : ℕ} (hpos : 0 < n) (hle : n ≤ 2 ^ 32) : ∃ k ≤ 32, n.testBit k = true := by
  obtain ⟨k, hk⟩ := exists_testBit_of_ne_zero hpos.ne'
  refine ⟨k, ?_, hk⟩
  have hpow := ge_two_pow_of_testBit hk
  exact (Nat.pow_le_pow_iff_right one_lt_two).mp (hpow.trans hle)

end Bits

section AddLeaf

variable {sha256 : Bytes → Uint256} {leaf : ℕ → Uint256}

/-- `inner` and `mutated` describe the leaves that were added. -/
structure MerkleState.Holds (sha256 : Bytes → Uint256) (leaf : ℕ → Uint256) (st : MerkleState) : Prop where
  inner : ∀ level, st.count.testBit level = true →
    st.inner level = fullNode (merklePair sha256) leaf level (st.count / 2 ^ level - 1)
  mutated : st.mutated = true ↔ EqualSiblings (merklePair sha256) leaf st.count

lemma MerkleState.Holds.inner_carry {st : MerkleState} (h : st.Holds sha256 leaf) {i q : ℕ}
    (hq : st.count + 1 = (q + 1) * 2 ^ (i + 1)) :
    st.inner i = fullNode (merklePair sha256) leaf i (2 * q) := by
  have hpos : 0 < 2 ^ i := by positivity
  have hdiv : st.count / 2 ^ i = 2 * q + 1 := by
    rw [pow_succ] at hq
    apply Nat.div_eq_of_lt_le <;> nlinarith
  have hbit : st.count.testBit i = true := by
    rw [testBit_iff, hdiv]
    omega
  rw [h.inner i hbit, hdiv, Nat.add_sub_cancel]

lemma exists_even_mul {n k q i : ℕ} (hq : n = (2 * q + 1) * 2 ^ k) (hi : i < k) :
    ∃ j, n = (2 * j + 2) * 2 ^ i := by
  obtain ⟨d, rfl⟩ := Nat.exists_eq_add_of_lt hi
  have hpos : 0 < 2 ^ d := by positivity
  obtain ⟨e, he⟩ : ∃ e, 2 ^ d = e + 1 := ⟨2 ^ d - 1, by omega⟩
  refine ⟨(2 * q + 1) * e + 2 * q, ?_⟩
  rw [hq, pow_succ, pow_add, he]
  ring

lemma lt_of_even_mul {n k q i j : ℕ} (hq : n = (2 * q + 1) * 2 ^ k) (hj : n = (2 * j + 2) * 2 ^ i) :
    i < k := by
  by_contra hle
  obtain ⟨d, rfl⟩ := Nat.exists_eq_add_of_le (not_lt.mp hle)
  have hpos : 0 < 2 ^ k := by positivity
  have hmul : (2 * q + 1) * 2 ^ k = (2 * ((j + 1) * 2 ^ d)) * 2 ^ k := by
    rw [← hq, hj, pow_add]
    ring
  have := eq_of_mul_eq_mul_right hpos hmul
  omega

lemma equalSiblings_succ {count k q : ℕ} (hq : count + 1 = (2 * q + 1) * 2 ^ k) :
    EqualSiblings (merklePair sha256) leaf (count + 1) ↔
      EqualSiblings (merklePair sha256) leaf count ∨
        ∃ i < k, fullNode (merklePair sha256) leaf i ((count + 1) / 2 ^ i - 2) =
          fullNode (merklePair sha256) leaf i ((count + 1) / 2 ^ i - 1) := by
  have hdiv : ∀ i j, count + 1 = (2 * j + 2) * 2 ^ i → (count + 1) / 2 ^ i = 2 * j + 2 := by
    intro i j hj
    rw [hj, Nat.mul_div_cancel _ (by positivity)]
  constructor
  · rintro ⟨i, j, hle, heq⟩
    by_cases hold : (2 * j + 2) * 2 ^ i ≤ count
    · exact Or.inl ⟨i, j, hold, heq⟩
    · have hj : count + 1 = (2 * j + 2) * 2 ^ i := by omega
      refine Or.inr ⟨i, lt_of_even_mul hq hj, ?_⟩
      rw [hdiv i j hj]
      exact heq
  · rintro (⟨i, j, hle, heq⟩ | ⟨i, hi, heq⟩)
    · exact ⟨i, j, by omega, heq⟩
    · obtain ⟨j, hj⟩ := exists_even_mul hq hi
      rw [hdiv i j hj] at heq
      exact ⟨i, j, hj.ge, heq⟩

lemma exists_carry {n : ℕ} (hpos : 0 < n) (hlimit : n ≤ 2 ^ 32) :
    ∃ q, n = (2 * q + 1) * 2 ^ lowBit n 32 0 := by
  obtain ⟨m, hm⟩ := exists_mul_of_lowBits
    (fun i hi => testBit_of_lt_lowBit n 32 (zero_le i) hi)
  obtain ⟨k, hk, hbit⟩ := exists_testBit hpos hlimit
  have hset := testBit_iff.mp (testBit_lowBit 32 (zero_le k) (by omega) hbit)
  nth_rewrite 1 [hm] at hset
  rw [Nat.mul_div_cancel _ (by positivity)] at hset
  exact ⟨m / 2, by rw [show 2 * (m / 2) + 1 = m by omega]; exact hm⟩

lemma div_eq_of_carry {count k q i : ℕ} (hq : count + 1 = (2 * q + 1) * 2 ^ k) (hi : k < i) :
    (count + 1) / 2 ^ i = count / 2 ^ i := by
  obtain ⟨d, rfl⟩ := Nat.exists_eq_add_of_lt hi
  have hpos : 0 < 2 ^ k := by positivity
  have hcount : count / 2 ^ k = 2 * q := by
    apply Nat.div_eq_of_lt_le <;> nlinarith
  have hnext : (count + 1) / 2 ^ k = 2 * q + 1 := by
    rw [hq, Nat.mul_div_cancel _ hpos]
  rw [show k + d + 1 = k + (1 + d) by omega, pow_add, ← Nat.div_div_eq_div_mul,
    ← Nat.div_div_eq_div_mul, hcount, hnext, pow_add, ← Nat.div_div_eq_div_mul, ← Nat.div_div_eq_div_mul]
  congr 1
  omega

lemma addLeaf_holds {st : MerkleState} (h : st.Holds sha256 leaf) (hlimit : st.count < 2 ^ 32) :
    (addLeaf sha256 st (leaf st.count)).Holds sha256 leaf ∧
      (addLeaf sha256 st (leaf st.count)).count = st.count + 1 := by
  obtain ⟨q, hq⟩ := exists_carry (add_one_pos st.count) hlimit
  have hdiv : ∀ i j, st.count + 1 = j * 2 ^ i → (st.count + 1) / 2 ^ i = j := by
    intro i j hj
    rw [hj, Nat.mul_div_cancel _ (by positivity)]
  -- On the way up the carry is the last full node of each level.
  have hleft : ∀ i, i < lowBit (st.count + 1) 32 0 →
      st.inner i = fullNode (merklePair sha256) leaf i ((st.count + 1) / 2 ^ i - 2) := by
    intro i hi
    obtain ⟨j, hj⟩ := exists_even_mul hq hi
    rw [hdiv i _ hj]
    exact h.inner_carry (by rw [hj, pow_succ]; ring)
  have hstep : ∀ i, 0 ≤ i → i < lowBit (st.count + 1) 32 0 →
      merklePair sha256 (st.inner i)
          (fullNode (merklePair sha256) leaf i ((st.count + 1) / 2 ^ i - 1)) =
        fullNode (merklePair sha256) leaf (i + 1) ((st.count + 1) / 2 ^ (i + 1) - 1) := by
    intro i _ hi
    obtain ⟨j, hj⟩ := exists_even_mul hq hi
    rw [hleft i hi, hdiv i _ hj, hdiv (i + 1) (j + 1) (by rw [hj, pow_succ]; ring)]
    rfl
  obtain ⟨mutated', heq, hiff⟩ := mergeLevels_eq sha256 st.mutated hstep
  have hleaf : leaf st.count = fullNode (merklePair sha256) leaf 0 ((st.count + 1) / 2 ^ 0 - 1) := by
    simp [fullNode]
  have hadd : addLeaf sha256 st (leaf st.count) = ⟨Function.update st.inner (lowBit (st.count + 1) 32 0)
      (fullNode (merklePair sha256) leaf (lowBit (st.count + 1) 32 0)
        ((st.count + 1) / 2 ^ lowBit (st.count + 1) 32 0 - 1)), st.count + 1, mutated'⟩ := by
    unfold addLeaf
    dsimp only
    rw [hleaf, heq]
  rw [hadd]
  refine ⟨⟨?_, ?_⟩, rfl⟩
  · intro level hbit
    dsimp only at hbit ⊢
    obtain rfl | hne := eq_or_ne level (lowBit (st.count + 1) 32 0)
    · exact Function.update_self ..
    · have hlt : lowBit (st.count + 1) 32 0 < level :=
        lt_of_le_of_ne (lowBit_le 32 (zero_le level) hbit) hne.symm
      have hsame := div_eq_of_carry hq hlt
      rw [Function.update_of_ne hne, hsame]
      apply h.inner
      rwa [testBit_iff, ← hsame, ← testBit_iff]
  · dsimp only
    rw [hiff, h.mutated, equalSiblings_succ hq]
    apply or_congr_right
    apply exists_congr
    intro i
    constructor
    · rintro ⟨-, hi, heq⟩
      exact ⟨hi, (hleft i hi).symm.trans heq⟩
    · rintro ⟨hi, heq⟩
      exact ⟨zero_le i, hi, (hleft i hi).trans heq⟩

lemma foldl_addLeaf_holds {st : MerkleState} (rest : List Uint256) (h : st.Holds sha256 leaf)
    (hrest : ∀ j < rest.length, leaf (st.count + j) = leafAt rest j)
    (hlimit : st.count + rest.length ≤ 2 ^ 32) :
    (rest.foldl (addLeaf sha256) st).Holds sha256 leaf ∧
      (rest.foldl (addLeaf sha256) st).count = st.count + rest.length := by
  induction rest generalizing st with
  | nil => exact ⟨h, rfl⟩
  | cons a rest ih =>
    rw [length_cons] at hlimit hrest
    have ha : leaf st.count = a := by simpa [leafAt] using hrest 0 (succ_pos _)
    obtain ⟨hnext, hcount⟩ := addLeaf_holds h (by omega)
    rw [ha] at hnext hcount
    have htail : ∀ j < rest.length, leaf ((addLeaf sha256 st a).count + j) = leafAt rest j := by
      intro j hj
      have hsucc := hrest (j + 1) (by omega)
      rw [hcount, add_right_comm, add_assoc, hsucc]
      simp [leafAt]
    obtain ⟨hfold, hfoldCount⟩ := ih hnext htail (by omega)
    refine ⟨hfold, ?_⟩
    rw [foldl_cons, hfoldCount, hcount, length_cons]
    omega

lemma initial_holds (sha256 : Bytes → Uint256) (leaf : ℕ → Uint256) :
    (⟨fun _ => BaseBlob.null 32, 0, false⟩ : MerkleState).Holds sha256 leaf := by
  refine ⟨?_, ?_⟩
  · intro level hbit
    rw [zero_testBit] at hbit
    cases hbit
  · refine ⟨fun h => absurd h false_ne_true, ?_⟩
    rintro ⟨i, j, hle, -⟩
    have hpos : 0 < (2 * j + 2) * 2 ^ i := by positivity
    dsimp only at hle
    omega

end AddLeaf

section Sweep

variable {sha256 : Bytes → Uint256} {leaf : ℕ → Uint256} {n count level : ℕ}

lemma count_climb {a b : ℕ} (hcount : count = treeWidth n a * 2 ^ a) (hab : a ≤ b)
    (hzero : ∀ i, a ≤ i → i < b → count.testBit i = false) : count = treeWidth n b * 2 ^ b := by
  induction b, hab using le_induction with
  | base => exact hcount
  | succ b hab ih =>
    have hb := ih (fun i hi hlt => hzero i hi (by omega))
    have heven : treeWidth n b % 2 = 0 := by
      have hbit := hzero b hab (by omega)
      rw [testBit_eq_decide_div_mod_eq, decide_eq_false_iff_not, hb,
        Nat.mul_div_cancel _ (by positivity)] at hbit
      omega
    rw [treeWidth, pow_succ, hb]
    obtain ⟨k, hk⟩ : ∃ k, treeWidth n b = 2 * k := ⟨treeWidth n b / 2, by omega⟩
    rw [hk, show (2 * k + 1) / 2 = k by omega]
    ring

lemma exists_testBit_climb (hn : 0 < n) {a : ℕ} (ha : a ≤ treeHeight n)
    (hcount : count = treeWidth n a * 2 ^ a) : ∃ k, a ≤ k ∧ k ≤ treeHeight n ∧ count.testBit k = true := by
  by_contra hnone
  push Not at hnone
  have htop := count_climb hcount ha (fun i hi hlt => by simpa using hnone i hi hlt.le)
  rw [treeWidth_treeHeight hn, one_mul] at htop
  apply hnone (treeHeight n) ha le_rfl
  rw [htop, testBit_two_pow_self]

lemma treeWidth_of_not_dvd {i : ℕ} (hpart : ¬ 2 ^ i ∣ n) : treeWidth n i = n / 2 ^ i + 1 := by
  have hpos : 0 < 2 ^ i := by positivity
  rw [treeWidth_eq_iff (Nat.add_one_pos _), Nat.add_sub_cancel]
  have hdiv := div_add_mod n (2 ^ i)
  have hmod : 0 < n % 2 ^ i := pos_of_ne_zero (fun h => hpart (dvd_of_mod_eq_zero h))
  have hlt := mod_lt n hpos
  constructor <;> nlinarith

lemma inner_of_even {inner : ℕ → Uint256}
    (hinner : ∀ level, n.testBit level = true →
      inner level = fullNode (merklePair sha256) leaf level (n / 2 ^ level - 1))
    {i : ℕ} (hpart : ¬ 2 ^ i ∣ n) (heven : treeWidth n i % 2 = 0) :
    inner i = treeNode (merklePair sha256) leaf n i (treeWidth n i - 2) := by
  have hwidth := treeWidth_of_not_dvd hpart
  have hdivOdd : n / 2 ^ i % 2 = 1 := by omega
  have hbit : n.testBit i = true := testBit_iff.mpr hdivOdd
  have hfull : (treeWidth n i - 2 + 1) * 2 ^ i ≤ n := by
    have hne : n / 2 ^ i ≠ 0 := by
      intro hzero
      rw [hzero] at hdivOdd
      cases hdivOdd
    rw [hwidth, show n / 2 ^ i + 1 - 2 = n / 2 ^ i - 1 from rfl, sub_one_add_one hne]
    exact div_mul_le_self n (2 ^ i)
  rw [hinner i hbit, treeNode_eq_fullNode hfull, hwidth]
  rfl

lemma treeNode_of_odd {i : ℕ} (hodd : treeWidth n i % 2 = 1) :
    merklePair sha256 (treeNode (merklePair sha256) leaf n i (treeWidth n i - 1))
        (treeNode (merklePair sha256) leaf n i (treeWidth n i - 1)) =
      treeNode (merklePair sha256) leaf n (i + 1) (treeWidth n (i + 1) - 1) := by
  have hleft : 2 * (treeWidth n (i + 1) - 1) = treeWidth n i - 1 := by
    rw [treeWidth]
    omega
  rw [treeNode, hleft, if_neg (by omega)]

lemma treeNode_of_even {i : ℕ} (hpos : 0 < treeWidth n i) (heven : treeWidth n i % 2 = 0) :
    merklePair sha256 (treeNode (merklePair sha256) leaf n i (treeWidth n i - 2))
        (treeNode (merklePair sha256) leaf n i (treeWidth n i - 1)) =
      treeNode (merklePair sha256) leaf n (i + 1) (treeWidth n (i + 1) - 1) := by
  have hleft : 2 * (treeWidth n (i + 1) - 1) = treeWidth n i - 2 := by
    rw [treeWidth]
    omega
  rw [treeNode, hleft, if_pos (by omega), show treeWidth n i - 2 + 1 = treeWidth n i - 1 by omega]

lemma testBit_count {i : ℕ} (hcount : count = treeWidth n i * 2 ^ i) :
    count.testBit i = true ↔ treeWidth n i % 2 = 1 := by
  rw [testBit_iff, hcount, Nat.mul_div_cancel _ (by positivity)]

/-- The sweep has reached the last node of an odd level. -/
structure SweepLevel (n count level : ℕ) : Prop where
  le : level ≤ treeHeight n
  count : count = treeWidth n level * 2 ^ level
  odd : treeWidth n level % 2 = 1
  part : ¬ 2 ^ (level + 1) ∣ n

lemma sweepLevel_lowBit (hn : 0 < n) (hlimit : n ≤ 2 ^ 32) :
    SweepLevel n n (lowBit n 32 0) ∧ treeWidth n (lowBit n 32 0) = n / 2 ^ lowBit n 32 0 := by
  obtain ⟨q, hq⟩ := exists_carry hn hlimit
  generalize lowBit n 32 0 = level at hq ⊢
  have hpos : 0 < 2 ^ level := by positivity
  have hwidth : treeWidth n level = 2 * q + 1 := by
    rw [treeWidth_eq_iff (Nat.add_one_pos _), Nat.add_sub_cancel]
    constructor <;> nlinarith
  refine ⟨⟨?_, hwidth ▸ hq, by omega, ?_⟩, ?_⟩
  · have hpow : 2 ^ level ≤ 2 ^ treeHeight n := by
      refine le_trans ?_ (le_pow_clog one_lt_two n)
      rw [hq]
      exact Nat.le_mul_of_pos_left _ (by omega)
    exact (Nat.pow_le_pow_iff_right one_lt_two).mp hpow
  · rintro ⟨k, hk⟩
    have hmul : 2 ^ level * (2 * q + 1) = 2 ^ level * (2 * k) := by
      rw [mul_comm, ← hq, hk, pow_succ]
      ring
    have := Nat.eq_of_mul_eq_mul_left hpos hmul
    omega
  · rw [hwidth, hq, Nat.mul_div_cancel _ hpos]

lemma SweepLevel.eq_treeHeight (h : SweepLevel n count level) (hstop : count = 2 ^ level) : level = treeHeight n := by
  by_contra hne
  have hwide := one_lt_treeWidth (n := n) (i := level) (lt_of_le_of_ne h.le hne)
  have hpos : 0 < 2 ^ level := by positivity
  have hcount := h.count
  nlinarith

lemma SweepLevel.next (hn : 0 < n) (hlimit : n ≤ 2 ^ 32) (h : SweepLevel n count level) (hstop : count ≠ 2 ^ level) :
    SweepLevel n (count + 2 ^ level) (lowBit (count + 2 ^ level) 32 (level + 1)) ∧
      ∀ i, level + 1 ≤ i → i < lowBit (count + 2 ^ level) 32 (level + 1) →
        treeWidth n i % 2 = 0 ∧ ¬ 2 ^ i ∣ n := by
  have hheight : treeHeight n ≤ 32 := clog_le_of_le_pow hlimit
  have hlt : level < treeHeight n := by
    refine lt_of_le_of_ne h.le ?_
    rintro rfl
    have hcount := h.count
    rw [treeWidth_treeHeight hn, one_mul] at hcount
    exact hstop hcount
  have hnext : count + 2 ^ level = treeWidth n (level + 1) * 2 ^ (level + 1) := by
    have hodd := h.odd
    obtain ⟨k, hk⟩ : ∃ k, treeWidth n level = 2 * k + 1 := ⟨treeWidth n level / 2, by omega⟩
    rw [h.count, treeWidth, hk, show (2 * k + 1 + 1) / 2 = k + 1 by omega, pow_succ]
    ring
  obtain ⟨k, hk, hkHeight, hbit⟩ := exists_testBit_climb hn hlt hnext
  have hset := testBit_lowBit 32 hk (by omega) hbit
  have hle := (lowBit_le 32 hk hbit).trans hkHeight
  have hlow := le_lowBit (count + 2 ^ level) 32 (level + 1)
  have hclimb : ∀ i, level + 1 ≤ i → i ≤ lowBit (count + 2 ^ level) 32 (level + 1) →
      count + 2 ^ level = treeWidth n i * 2 ^ i := by
    intro i hi hil
    exact count_climb hnext hi (fun l hl hli => testBit_of_lt_lowBit _ 32 hl (by omega))
  have hnotFull : ∀ i, level + 1 ≤ i → ¬ 2 ^ i ∣ n :=
    fun i hi hdvd => h.part ((pow_dvd_pow 2 hi).trans hdvd)
  refine ⟨⟨hle, hclimb _ hlow le_rfl, (testBit_count (hclimb _ hlow le_rfl)).mp hset, hnotFull _ (by omega)⟩, ?_⟩
  intro i hi hil
  have hzero := testBit_of_lt_lowBit _ 32 hi hil
  have hiff := testBit_count (hclimb i hi hil.le)
  rw [hzero] at hiff
  exact ⟨by simpa using hiff, hnotFull i hi⟩

lemma sweep_eq {inner : ℕ → Uint256} (hn : 0 < n) (hlimit : n ≤ 2 ^ 32)
    (hinner : ∀ level, n.testBit level = true →
      inner level = fullNode (merklePair sha256) leaf level (n / 2 ^ level - 1))
    (fuel : ℕ) (hlevel : SweepLevel n count level) (hfuel : treeHeight n ≤ level + fuel) :
    sweep sha256 inner fuel count level
        (treeNode (merklePair sha256) leaf n level (treeWidth n level - 1)) =
      treeRoot (merklePair sha256) leaf n := by
  have htop : ∀ i, i = treeHeight n →
      treeNode (merklePair sha256) leaf n i (treeWidth n i - 1) = treeRoot (merklePair sha256) leaf n := by
    rintro i rfl
    rw [treeWidth_treeHeight hn]
    rfl
  induction fuel generalizing level count with
  | zero => exact htop level (by have hle := hlevel.le; omega)
  | succ fuel ih =>
    unfold sweep
    by_cases hstop : count = 2 ^ level
    · rw [if_pos hstop]
      exact htop level (hlevel.eq_treeHeight hstop)
    · rw [if_neg hstop]
      dsimp only
      obtain ⟨hnext, heven⟩ := hlevel.next hn hlimit hstop
      have hlow := le_lowBit (count + 2 ^ level) 32 (level + 1)
      have hstep : ∀ i, level + 1 ≤ i → i < lowBit (count + 2 ^ level) 32 (level + 1) →
          merklePair sha256 (inner i) (treeNode (merklePair sha256) leaf n i (treeWidth n i - 1)) =
            treeNode (merklePair sha256) leaf n (i + 1) (treeWidth n (i + 1) - 1) := by
        intro i hi hil
        obtain ⟨hwidth, hpart⟩ := heven i hi hil
        rw [inner_of_even hinner hpart hwidth, treeNode_of_even (treeWidth_pos hn i) hwidth]
      obtain ⟨mutated', heq, -⟩ := mergeLevels_eq sha256 false hstep
      rw [treeNode_of_odd hlevel.odd, heq]
      exact ih hnext (by omega)

lemma inner_lowBit {inner : ℕ → Uint256} (hn : 0 < n) (hlimit : n ≤ 2 ^ 32)
    (hinner : ∀ level, n.testBit level = true →
      inner level = fullNode (merklePair sha256) leaf level (n / 2 ^ level - 1)) :
    inner (lowBit n 32 0) =
      treeNode (merklePair sha256) leaf n (lowBit n 32 0) (treeWidth n (lowBit n 32 0) - 1) := by
  obtain ⟨hlevel, hwidth⟩ := sweepLevel_lowBit hn hlimit
  have hodd := hlevel.odd
  have hbit : n.testBit (lowBit n 32 0) = true := by
    rw [testBit_iff, ← hwidth]
    exact hodd
  rw [treeNode_eq_fullNode, hwidth]
  · exact hinner _ hbit
  · rw [Nat.sub_add_cancel (by omega)]
    exact hlevel.count.ge

end Sweep

section Root

variable (sha256 : Bytes → Uint256)

lemma computeMerkleRoot_spec {leaves : List Uint256} (hne : leaves ≠ [])
    (hlimit : leaves.length ≤ 2 ^ 32) :
    (computeMerkleRoot sha256 leaves).1 =
        treeRoot (merklePair sha256) (leafAt leaves) leaves.length ∧
      ((computeMerkleRoot sha256 leaves).2 = true ↔
        EqualSiblings (merklePair sha256) (leafAt leaves) leaves.length) := by
  have hn : 0 < leaves.length := length_pos_iff.mpr hne
  obtain ⟨hholds, hcount⟩ := foldl_addLeaf_holds leaves (initial_holds sha256 (leafAt leaves)) (fun j _ => by rw [zero_add]) (by simpa using hlimit)
  rw [zero_add] at hcount
  unfold computeMerkleRoot
  rw [if_neg (by simpa using hne)]
  dsimp only
  generalize leaves.foldl (addLeaf sha256) ⟨fun _ => BaseBlob.null 32, 0, false⟩ = st at hholds hcount ⊢
  refine ⟨?_, hcount ▸ hholds.mutated⟩
  have hinner := hholds.inner
  rw [hcount] at hinner ⊢
  obtain ⟨hlevel, -⟩ := sweepLevel_lowBit hn hlimit
  have hheight : treeHeight leaves.length ≤ 32 := clog_le_of_le_pow hlimit
  rw [inner_lowBit hn hlimit hinner]
  exact sweep_eq hn hlimit hinner 32 hlevel (by omega)

/-- If the pairs that the two trees hash do not collide, two lists of leaves with as many levels, the
same root and no mutation are equal. -/
theorem computeMerkleRoot_injective (leaves leaves' : List Uint256) (hne : leaves ≠ []) (hne' : leaves' ≠ [])
    (hlimit : leaves.length ≤ 2 ^ 32) (hlimit' : leaves'.length ≤ 2 ^ 32)
    (hlevels : treeHeight leaves.length = treeHeight leaves'.length)
    (hinj : Set.InjOn (fun p => merklePair sha256 p.1 p.2)
      (hashedPairs (merklePair sha256) (leafAt leaves) leaves.length ∪
        hashedPairs (merklePair sha256) (leafAt leaves') leaves'.length))
    (hmutated : (computeMerkleRoot sha256 leaves).2 = false)
    (hmutated' : (computeMerkleRoot sha256 leaves').2 = false)
    (hroot : (computeMerkleRoot sha256 leaves).1 = (computeMerkleRoot sha256 leaves').1) :
    leaves = leaves' := by
  obtain ⟨hvalue, hflag⟩ := computeMerkleRoot_spec sha256 hne hlimit
  obtain ⟨hvalue', hflag'⟩ := computeMerkleRoot_spec sha256 hne' hlimit'
  rw [hmutated] at hflag
  rw [hmutated'] at hflag'
  rw [hvalue, hvalue'] at hroot
  obtain ⟨hlength, hleaves⟩ := leaves_eq_of_treeRoot_eq (length_pos_iff.mpr hne)
    (length_pos_iff.mpr hne') hlevels hinj (fun h => false_ne_true (hflag.mpr h))
    (fun h => false_ne_true (hflag'.mpr h)) hroot
  apply ext_getElem hlength
  intro j hj hj'
  have hleaf := hleaves j hj
  simpa [leafAt, hj, hj'] using hleaf

def threeLeaves : List Uint256 := [BaseBlob.ofNat 32 1, BaseBlob.ofNat 32 2, BaseBlob.ofNat 32 3]

def threePairs : List (Uint256 × Uint256) :=
  [treePair (merklePair cSHA256) (leafAt threeLeaves) 3 0 0,
    treePair (merklePair cSHA256) (leafAt threeLeaves) 3 0 1,
    treePair (merklePair cSHA256) (leafAt threeLeaves) 3 1 0]

lemma mem_threePairs : ∀ p ∈ hashedPairs (merklePair cSHA256) (leafAt threeLeaves) threeLeaves.length, p ∈ threePairs := by
  rintro p ⟨i, j, hi, hj, rfl⟩
  have hi : i < 2 := hi
  change j < treeWidth 3 (i + 1) at hj
  change treePair _ _ 3 i j ∈ threePairs
  interval_cases i
  · have hj : j < 2 := hj
    interval_cases j <;> simp [threePairs]
  · have hj : j < 1 := hj
    interval_cases j
    simp [threePairs]

lemma injOn_threeLeaves : Set.InjOn (fun p => merklePair cSHA256 p.1 p.2)
    (hashedPairs (merklePair cSHA256) (leafAt threeLeaves) threeLeaves.length) := by
  have hpairs : ∀ p ∈ threePairs, ∀ p' ∈ threePairs,
      merklePair cSHA256 p.1 p.2 = merklePair cSHA256 p'.1 p'.2 → p = p' := by
    decide +kernel
  intro p hp p' hp' heq
  exact hpairs p (mem_threePairs p hp) p' (mem_threePairs p' hp') heq

theorem computeMerkleRoot_injective_threeLeaves :
    (computeMerkleRoot cSHA256 threeLeaves).2 = false ∧ threeLeaves = threeLeaves :=
  ⟨by decide +kernel, computeMerkleRoot_injective cSHA256 threeLeaves threeLeaves (by decide) (by decide)
    (by decide) (by decide) rfl (by rw [Set.union_self]; exact injOn_threeLeaves) (by decide +kernel)
    (by decide +kernel) rfl⟩

end Root

end MutableBitcoin
