import Mathlib.Data.Int.ModEq
import Mathlib.Data.Nat.Log
import Mathlib.Tactic.Ring

/-!
# Modular exponentiation by repeated squaring

`powMod b e m` evaluates `b ^ e % m` with one squaring for every bit of the exponent, so
that exponents of a thousand bits can be evaluated by the kernel. The second part of the
file is about residues of order dividing an odd number: they never equal `-1`.
-/

namespace MutableBitcoin.Lib
open Nat

/-- One squaring for every unit of fuel; `acc` collects the factors of the set bits. -/
def powModAux (m : ℕ) : ℕ → ℕ → ℕ → ℕ → ℕ
  | 0, _, _, acc => acc
  | fuel + 1, b, e, acc =>
    powModAux m fuel (b * b % m) (e / 2) (if e % 2 = 1 then acc * b % m else acc)

def powMod (b e m : ℕ) : ℕ :=
  powModAux m (Nat.log2 e + 1) (b % m) e (1 % m)

lemma powModAux_modEq (m fuel b e acc : ℕ) (he : e < 2 ^ fuel) :
    powModAux m fuel b e acc ≡ acc * b ^ e [MOD m] := by
  induction fuel generalizing b e acc with
  | zero =>
    have h0 : e = 0 := by simpa using he
    simp only [powModAux, h0, pow_zero, mul_one]
    exact Nat.ModEq.refl _
  | succ fuel ih =>
    have hhalf : e / 2 < 2 ^ fuel := by
      rw [pow_succ] at he
      omega
    have hsq : (b * b % m) ^ (e / 2) ≡ (b * b) ^ (e / 2) [MOD m] :=
      (mod_modEq _ _).pow _
    have hstep := ih (b * b % m) (e / 2) (if e % 2 = 1 then acc * b % m else acc) hhalf
    rw [powModAux]
    refine hstep.trans ?_
    have hsplit : b ^ e = (b * b) ^ (e / 2) * b ^ (e % 2) := by
      rw [← pow_two, ← pow_mul, ← pow_add, div_add_mod]
    by_cases hodd : e % 2 = 1
    · have hacc : acc * b % m ≡ acc * b [MOD m] := mod_modEq _ _
      rw [if_pos hodd, hsplit, hodd, pow_one,
        show acc * ((b * b) ^ (e / 2) * b) = acc * b * (b * b) ^ (e / 2) by ring]
      exact hacc.mul hsq
    · have hzero : e % 2 = 0 := by omega
      rw [if_neg hodd, hsplit, hzero, pow_zero, mul_one]
      exact (Nat.ModEq.refl acc).mul hsq

lemma powModAux_lt {m : ℕ} (hm : 0 < m) (fuel b e acc : ℕ) (ha : acc < m) :
    powModAux m fuel b e acc < m := by
  induction fuel generalizing b e acc with
  | zero => exact ha
  | succ fuel ih =>
    rw [powModAux]
    apply ih
    split
    · exact mod_lt _ hm
    · exact ha

theorem powMod_eq {m : ℕ} (hm : 0 < m) (b e : ℕ) : powMod b e m = b ^ e % m := by
  have hmod : powMod b e m ≡ b ^ e [MOD m] := by
    have hbase : (b % m) ^ e ≡ b ^ e [MOD m] := (mod_modEq b m).pow e
    have hone : 1 % m ≡ 1 [MOD m] := mod_modEq 1 m
    have haux := powModAux_modEq m (Nat.log2 e + 1) (b % m) e (1 % m) lt_log2_self
    simpa [powMod] using haux.trans (hone.mul hbase)
  have hlt : powMod b e m < m := powModAux_lt hm _ _ _ _ (mod_lt _ hm)
  rw [← mod_eq_of_lt hlt]
  exact hmod

/-- A residue whose odd power is one is not `-1`. -/
theorem ne_pred_of_pow_odd_modEq_one {m t n : ℕ} (hm : 2 < m) (hn : Odd n)
    (ht : t ^ n ≡ 1 [MOD m]) : t ≠ m - 1 := by
  rintro rfl
  have hneg : ((m - 1 : ℕ) : ℤ) ≡ -1 [ZMOD m] := by
    rw [cast_sub (by omega), cast_one]
    exact (Int.modEq_iff_dvd).mpr ⟨-1, by ring⟩
  have hpow : (((m - 1 : ℕ) : ℤ)) ^ n ≡ -1 [ZMOD m] := by
    simpa only [hn.neg_one_pow] using hneg.pow n
  have hone : (((m - 1 : ℕ) : ℤ)) ^ n ≡ 1 [ZMOD m] := by
    exact_mod_cast (Int.natCast_modEq_iff).mpr ht
  have hdvd : (m : ℤ) ∣ 2 := by
    have := (Int.modEq_iff_dvd).mp (hpow.symm.trans hone)
    simpa using this
  have hle : (m : ℤ) ≤ 2 := Int.le_of_dvd (by norm_num) hdvd
  omega

end MutableBitcoin.Lib
