import MutableBitcoin.Lib.PowMod
import MutableBitcoin.Lib.Sha256
import MutableBitcoin.Uint256

/-!
# The chameleon hash

`CChamHash` of `chameleon.h`. `Integer` is modelled by `ℤ` and `ModularArithmetic` by its effect on values.
-/

namespace MutableBitcoin
open Lib Nat

/-- `CryptoPP::ModularArithmetic`, by the values its operations return. -/
structure ModularArithmetic where
  modulus : ℤ

namespace ModularArithmetic

variable (ma : ModularArithmetic)

/-- Subtracts the modulus once when the sum reaches it. -/
def add (a b : ℤ) : ℤ :=
  if ma.modulus ≤ a + b then a + b - ma.modulus else a + b

def subtract (a b : ℤ) : ℤ :=
  if a < b then a - b + ma.modulus else a - b

def reduce (a b : ℤ) : ℤ :=
  if a < b then a - b + ma.modulus else a - b

def multiply (a b : ℤ) : ℤ := a * b % ma.modulus

/-- Bases and exponents are non-negative wherever `CChamHash` calls it. -/
def exponentiate (base exponent : ℤ) : ℤ :=
  powMod base.toNat exponent.toNat ma.modulus.toNat

end ModularArithmetic

/-- `os << i` on a fresh stream: decimal digits and a point. -/
def integerToText (i : ℤ) : Str :=
  (if i < 0 then ['-'] else []) ++ Nat.toDigits 10 i.natAbs ++ ['.']

/-- `os << std::hex << i`: hexadecimal digits and an `h`. -/
def integertoHexString (i : ℤ) : Str :=
  (if i < 0 then ['-'] else []) ++ Nat.toDigits 16 i.natAbs ++ ['h']

/-- The constructor `Integer(str)` on the texts it is given here, `0x` and digits. -/
def integerOfText (str : Str) : ℤ := hexValue (skipHexPrefix str)

def byteArraytoString (ba : Bytes) : Str := '0' :: 'x' :: hexStr ba

def byteArraytoInteger (ba : Bytes) : ℤ := integerOfText (byteArraytoString ba)

def textBytes (s : Str) : Bytes := s.map (fun c => UInt8.ofNat c.toNat)

def cSHA256 (m : Bytes) : Uint256 := ⟨Sha256.hash m, Sha256.length_hash m⟩

/-- The parameters held by `CChamHash`. -/
structure CChamHash where
  p : ℤ
  q : ℤ
  g : ℤ
  tk : ℤ
  hk : ℤ

/-- The hard-coded parameters of the constructor `CChamHash()`. -/
def cChamHash : CChamHash where
  p := 0x14d2b679d4bdbfdcd1f366e796d9e7f164a6b5a34383a29ddaf0fdc3011fb583383285dd60234732df194c3fbb76d2e096af464ad5bdcdae9ff6d3e761cd7f746474dc990c51207d12212258dc5db6136e83f374ba35b08a10313d7e8011c0f18a3e96cee5e5bc4aff2fc660c743356945257525505ac5bfb0f4e71fd2130bacf
  q := 0xa695b3cea5edfee68f9b373cb6cf3f8b2535ad1a1c1d14eed787ee1808fdac19c1942eeb011a3996f8ca61fddbb69704b57a3256adee6d74ffb69f3b0e6bfba323a6e4c8628903e8910912c6e2edb09b741f9ba5d1ad84508189ebf4008e078c51f4b6772f2de257f97e33063a19ab4a292ba92a82d62dfd87a738fe90985d67
  g := 0x2
  tk := 0x0000000000000000000000000000000000000000000000000000000000000000000000000000000000000000000000000000000000000000000000000000000000000000000000000000000000000000000000000000000000000000000000000000000000000000000000089f7e594261a017ad7e4317603437dbbca02f0caf
  hk := 0x005f61b408f891e280f08294e9280559006023668ab06c37b69c66e0e727891940057635a8610ffa6c82cdd7f6f01e13bad62c412fd07fb70608e8e32bbacb532895bbd83a8e79cd7aea0a9cf17d5318949ff3c0b51d68f38e193f593f64249a3df8aab6a543462e79e13faa93b6d3d6669c972b58eb3b41084d77715590fd5b0a

/-- What the collision rests on: `p = 2q + 1` with `q` odd, the key pair, and a generator of a
subgroup of order dividing `q`. -/
structure CChamHash.Valid (cc : CChamHash) : Prop where
  safe : cc.p = 2 * cc.q + 1
  odd : Odd cc.q.toNat
  large : 256 ^ 32 ≤ cc.q
  generator : 0 < cc.g ∧ cc.g < cc.q
  trapdoor : 0 ≤ cc.tk
  order : cc.g.toNat ^ cc.q.toNat ≡ 1 [MOD cc.p.toNat]
  key : cc.hk.toNat ≡ cc.g.toNat ^ cc.tk.toNat [MOD cc.p.toNat]

theorem cChamHash_valid : cChamHash.Valid where
  safe := by decide +kernel
  odd := odd_iff.mpr (by decide +kernel)
  large := by decide +kernel
  generator := by decide +kernel
  trapdoor := by decide +kernel
  order := by
    have h : powMod cChamHash.g.toNat cChamHash.q.toNat cChamHash.p.toNat = 1 := by decide +kernel
    rw [powMod_eq (by decide +kernel)] at h
    rw [Nat.ModEq, h]
    decide +kernel
  key := by
    have h : powMod cChamHash.g.toNat cChamHash.tk.toNat cChamHash.p.toNat = cChamHash.hk.toNat := by
      decide +kernel
    rw [powMod_eq (by decide +kernel)] at h
    rw [Nat.ModEq, h]
    decide +kernel

namespace CChamHash

section Hash

variable (sha256 : Bytes → Uint256) (cc : CChamHash)

def integerToSHA256 (mTemp : ℤ) : Str :=
  byteArraytoString (sha256 (textBytes (integerToText mTemp))).data

/-- The SHA-256 hash of the two decimal texts, read as a big-endian number. -/
def hashInput (mTemp r : ℤ) : ℤ :=
  byteArraytoInteger (sha256 (textBytes (integerToText mTemp ++ integerToText r))).data

/-- Returns the pair of the output parameters `sh` and `h`. -/
def cHash (mTemp r s : ℤ) : Option (Str × ℤ) := do
  let m := hashInput sha256 mTemp r
  guard (0 ≤ r)
  guard (r < cc.q)
  guard (0 ≤ r ∧ r < cc.q)
  guard (0 ≤ s ∧ s < cc.q)
  guard (0 ≤ m ∧ m < cc.q)
  let maP : ModularArithmetic := ⟨cc.p⟩
  let maQ : ModularArithmetic := ⟨cc.q⟩
  let t₁ := maP.exponentiate cc.hk m
  -- `0<=t1<p` compares the truth value of `0<=t1` with `p`
  guard ((if 0 ≤ t₁ then 1 else 0) < cc.p)
  let t₂ := maP.exponentiate cc.g s
  guard ((if 0 ≤ t₂ then 1 else 0) < cc.p)
  let t₃ := maP.multiply t₁ t₂
  let h := maQ.subtract r t₃
  -- `t3` is a residue modulo `p`, so one addition of `q` may leave a negative number
  let h := if h < 0 then -h else h
  return (integerToSHA256 sha256 h, h)

/-- Returns the pair of the output parameters `r2` and `s2`. -/
def hCol (h _m₁ _r₁ _s₁ m₂ : ℤ) : Option (ℤ × ℤ) := do
  let maQ : ModularArithmetic := ⟨cc.q⟩
  let k : ℤ := 1
  guard (0 ≤ k ∧ k < cc.q)
  let r := maQ.exponentiate cc.g k
  guard ((if 0 ≤ r then 1 else 0) < cc.p)
  let r := maQ.reduce r cc.q
  let r₂ := maQ.add h r
  let m := hashInput sha256 m₂ r₂
  let t₁ := maQ.multiply m cc.tk
  let s₂ := maQ.subtract k t₁
  return (r₂, s₂)

/-- The texts `hVer` prepares for its commented-out output are not part of the result. -/
def hVer (h₁ _m₁ _r₁ _s₁ m₂ r₂ s₂ : ℤ) : Option Unit := do
  let (_, h₂) ← cHash sha256 cc m₂ r₂ s₂
  guard (h₂ = h₁)

end Hash

lemma byteArraytoInteger_eq (ba : Bytes) : byteArraytoInteger ba = leValue ba.reverse := by
  have h := hexValue_hexStr ba.reverse
  rw [List.reverse_reverse] at h
  simp [byteArraytoInteger, byteArraytoString, integerOfText, skipHexPrefix, h]

/-- The residue `t3` that `cHash` subtracts from `r`, in terms of the trapdoor. -/
def residue (cc : CChamHash) (m s : ℤ) : ℕ :=
  cc.g.toNat ^ (cc.tk.toNat * m.toNat + s.toNat) % cc.p.toNat

/-- The value `cHash` makes of `r` and `t3`. -/
def foldResidue (cc : CChamHash) (r t : ℤ) : ℤ :=
  let h := ModularArithmetic.subtract ⟨cc.q⟩ r t
  if h < 0 then -h else h

section Valid

variable {sha256 : Bytes → Uint256} {cc : CChamHash}

lemma hashInput_nonneg (sha256 : Bytes → Uint256) (mTemp r : ℤ) : 0 ≤ hashInput sha256 mTemp r := by
  rw [hashInput, byteArraytoInteger_eq]
  positivity

lemma hashInput_lt (hv : cc.Valid) (mTemp r : ℤ) : hashInput sha256 mTemp r < cc.q := by
  refine lt_of_lt_of_le ?_ hv.large
  rw [hashInput, byteArraytoInteger_eq]
  have h := leValue_lt (sha256 (textBytes (integerToText mTemp ++ integerToText r))).data.reverse
  rw [List.length_reverse, BaseBlob.length_data] at h
  exact_mod_cast h

lemma Valid.q_pos (hv : cc.Valid) : 2 < cc.q := by
  have := hv.large
  norm_num at this
  omega

lemma Valid.p_pos (hv : cc.Valid) : 5 < cc.p := by
  have := hv.q_pos
  have := hv.safe
  omega

lemma residue_bounds (hv : cc.Valid) (m s : ℤ) :
    0 < residue cc m s ∧ (residue cc m s : ℤ) < 2 * cc.q := by
  have hp := hv.p_pos
  have hpn : 2 < cc.p.toNat := by omega
  have hlt : residue cc m s < cc.p.toNat := mod_lt _ (by omega)
  have hord : residue cc m s ^ cc.q.toNat ≡ 1 [MOD cc.p.toNat] := by
    have hres : residue cc m s ≡ cc.g.toNat ^ (cc.tk.toNat * m.toNat + s.toNat) [MOD cc.p.toNat] :=
      mod_modEq _ _
    refine (hres.pow cc.q.toNat).trans ?_
    rw [← pow_mul, mul_comm, pow_mul]
    simpa using hv.order.pow (cc.tk.toNat * m.toNat + s.toNat)
  have hne := ne_pred_of_pow_odd_modEq_one hpn hv.odd hord
  have hpos : 0 < residue cc m s := by
    rw [pos_iff_ne_zero]
    intro h0
    rw [h0, zero_pow (by have := hv.q_pos; omega)] at hord
    have := Nat.ModEq.eq_of_lt_of_lt hord (by omega) (by omega)
    omega
  have hsafe := hv.safe
  exact ⟨hpos, by omega⟩

lemma foldResidue_bounds (hv : cc.Valid) {r : ℤ} (hr : 0 ≤ r ∧ r < cc.q) (m s : ℤ) :
    0 ≤ foldResidue cc r (residue cc m s) ∧ foldResidue cc r (residue cc m s) < cc.q := by
  obtain ⟨hpos, hlt⟩ := residue_bounds hv m s
  simp only [foldResidue, ModularArithmetic.subtract]
  split_ifs <;> omega

lemma multiply_exponentiate (hv : cc.Valid) (m s : ℤ) :
    ModularArithmetic.multiply ⟨cc.p⟩ (ModularArithmetic.exponentiate ⟨cc.p⟩ cc.hk m)
      (ModularArithmetic.exponentiate ⟨cc.p⟩ cc.g s) = residue cc m s := by
  have hp := hv.p_pos
  have hpn : 0 < cc.p.toNat := by omega
  have hpc : (cc.p.toNat : ℤ) = cc.p := Int.toNat_of_nonneg (by omega)
  have hkey : cc.hk.toNat ^ m.toNat * cc.g.toNat ^ s.toNat ≡
      cc.g.toNat ^ (cc.tk.toNat * m.toNat + s.toNat) [MOD cc.p.toNat] := by
    rw [pow_add, pow_mul]
    exact (hv.key.pow _).mul_right _
  simp only [ModularArithmetic.multiply, ModularArithmetic.exponentiate, powMod_eq hpn]
  have hmul : (cc.hk.toNat ^ m.toNat % cc.p.toNat) * (cc.g.toNat ^ s.toNat % cc.p.toNat) %
      cc.p.toNat = residue cc m s := by
    rw [← mul_mod]
    exact hkey
  rw [← hmul]
  push_cast
  rw [hpc]

lemma hashGuards (hv : cc.Valid) (t : ℤ) : (if 0 ≤ t then 1 else 0) < cc.p := by
  have := hv.p_pos
  split_ifs <;> omega

/-- On arguments in range `cHash` aborts nowhere and returns the folded residue. -/
theorem cHash_eq (hv : cc.Valid) {r s : ℤ} (hr : 0 ≤ r ∧ r < cc.q) (hs : 0 ≤ s ∧ s < cc.q)
    (mTemp : ℤ) :
    cHash sha256 cc mTemp r s =
      let h := foldResidue cc r (residue cc (hashInput sha256 mTemp r) s)
      some (integerToSHA256 sha256 h, h) := by
  have hm : 0 ≤ hashInput sha256 mTemp r ∧ hashInput sha256 mTemp r < cc.q :=
    ⟨hashInput_nonneg _ _ _, hashInput_lt hv _ _⟩
  simp [cHash, hr, hs, hm, hashGuards hv, multiply_exponentiate hv, foldResidue]

lemma lt_of_cHash_eq_some {mTemp r s : ℤ} {out : Str × ℤ}
    (h : cHash sha256 cc mTemp r s = some out) : r < cc.q ∧ s < cc.q := by
  unfold cHash at h
  by_cases hr : r < cc.q
  · by_cases hs : s < cc.q
    · exact ⟨hr, hs⟩
    · simp [hs] at h
  · simp [hr] at h

lemma add_bounds {h x : ℤ} (hh : 0 ≤ h ∧ h < cc.q) (hx : 0 ≤ x ∧ x < cc.q) :
    0 ≤ ModularArithmetic.add ⟨cc.q⟩ h x ∧ ModularArithmetic.add ⟨cc.q⟩ h x < cc.q := by
  simp only [ModularArithmetic.add]
  split_ifs <;> omega

lemma foldResidue_add {h x : ℤ} (hh : 0 ≤ h ∧ h < cc.q) (hx : 0 ≤ x ∧ x < cc.q) :
    foldResidue cc (ModularArithmetic.add ⟨cc.q⟩ h x) x = h := by
  simp only [foldResidue, ModularArithmetic.subtract, ModularArithmetic.add]
  split_ifs <;> omega

/-- The randomness `hCol` returns for the new message: `r2 = h + g` and `s2 = 1 - m * tk`. -/
def collision (sha256 : Bytes → Uint256) (cc : CChamHash) (h m₂ : ℤ) : ℤ × ℤ :=
  let r₂ := ModularArithmetic.add ⟨cc.q⟩ h cc.g
  (r₂, ModularArithmetic.subtract ⟨cc.q⟩ 1
    (ModularArithmetic.multiply ⟨cc.q⟩ (hashInput sha256 m₂ r₂) cc.tk))

lemma exponentiate_one (hv : cc.Valid) : ModularArithmetic.exponentiate ⟨cc.q⟩ cc.g 1 = cc.g := by
  have hq := hv.q_pos
  have hg := hv.generator
  rw [ModularArithmetic.exponentiate, powMod_eq (by simp; omega)]
  simp only [Int.toNat_one, pow_one]
  rw [mod_eq_of_lt (by omega), Int.toNat_of_nonneg (by omega)]

/-- The collision reads neither the old message nor the old randomness, only the hash. -/
theorem hCol_eq (hv : cc.Valid) (h m₁ r₁ s₁ m₂ : ℤ) :
    hCol sha256 cc h m₁ r₁ s₁ m₂ = some (collision sha256 cc h m₂) := by
  have hk : (1 : ℤ) < cc.q := by
    have := hv.q_pos
    omega
  have hred : ModularArithmetic.reduce ⟨cc.q⟩ cc.g cc.q = cc.g := by
    have := hv.generator
    simp only [ModularArithmetic.reduce]
    split_ifs <;> omega
  simp [hCol, hk, hashGuards hv, exponentiate_one hv, hred, collision]

lemma subtract_emod_bounds (hv : cc.Valid) (x : ℤ) :
    0 ≤ ModularArithmetic.subtract ⟨cc.q⟩ 1 (x % cc.q) ∧
      ModularArithmetic.subtract ⟨cc.q⟩ 1 (x % cc.q) < cc.q := by
  have hq := hv.q_pos
  have h₀ := Int.emod_nonneg x (show cc.q ≠ 0 by omega)
  have h₁ := Int.emod_lt_of_pos x (show 0 < cc.q by omega)
  simp only [ModularArithmetic.subtract]
  split_ifs <;> omega

lemma collision_bounds (sha256 : Bytes → Uint256) (hv : cc.Valid) {h : ℤ} (hh : 0 ≤ h ∧ h < cc.q) (m₂ : ℤ) :
    (0 ≤ (collision sha256 cc h m₂).1 ∧ (collision sha256 cc h m₂).1 < cc.q) ∧
    (0 ≤ (collision sha256 cc h m₂).2 ∧ (collision sha256 cc h m₂).2 < cc.q) := by
  have hg := hv.generator
  exact ⟨add_bounds hh ⟨hg.1.le, hg.2⟩, subtract_emod_bounds hv _⟩

lemma residue_collision (hv : cc.Valid) (h m₂ : ℤ) :
    residue cc (hashInput sha256 m₂ (collision sha256 cc h m₂).1)
      (collision sha256 cc h m₂).2 = cc.g.toNat := by
  have hq := hv.q_pos
  have hg := hv.generator
  have hsafe := hv.safe
  have htk := hv.trapdoor
  set r₂ := (collision sha256 cc h m₂).1 with hr₂
  have hm := hashInput_nonneg sha256 m₂ r₂
  set m := hashInput sha256 m₂ r₂ with hmdef
  have hs₂ : (collision sha256 cc h m₂).2 =
      ModularArithmetic.subtract ⟨cc.q⟩ 1 (m * cc.tk % cc.q) := rfl
  set s₂ := (collision sha256 cc h m₂).2 with hs₂def
  have hdiv := Int.mul_ediv_add_emod (m * cc.tk) cc.q
  have hk₀ : 0 ≤ m * cc.tk / cc.q := Int.ediv_nonneg (mul_nonneg hm htk) (by omega)
  -- the exponent is one plus a multiple of `q`
  obtain ⟨j, hj⟩ : ∃ j : ℕ, cc.tk.toNat * m.toNat + s₂.toNat = 1 + cc.q.toNat * j := by
    have hs₂nonneg : 0 ≤ s₂ := (subtract_emod_bounds hv (m * cc.tk)).1
    have hcast : ((cc.tk.toNat * m.toNat + s₂.toNat : ℕ) : ℤ) = m * cc.tk + s₂ := by
      push_cast
      rw [Int.toNat_of_nonneg hm, Int.toNat_of_nonneg htk, Int.toNat_of_nonneg hs₂nonneg]
      ring
    by_cases hlt : 1 < m * cc.tk % cc.q
    · refine ⟨(m * cc.tk / cc.q).toNat + 1, ?_⟩
      zify
      rw [← cast_mul, ← cast_add, hcast, Int.toNat_of_nonneg (show 0 ≤ cc.q by omega),
        Int.toNat_of_nonneg hk₀, hs₂, ModularArithmetic.subtract, if_pos hlt]
      simp only
      linarith
    · refine ⟨(m * cc.tk / cc.q).toNat, ?_⟩
      zify
      rw [← cast_mul, ← cast_add, hcast, Int.toNat_of_nonneg (show 0 ≤ cc.q by omega),
        Int.toNat_of_nonneg hk₀, hs₂, ModularArithmetic.subtract, if_neg hlt]
      linarith
  have hpow : cc.g.toNat ^ (1 + cc.q.toNat * j) ≡ cc.g.toNat [MOD cc.p.toNat] := by
    rw [pow_add, pow_one, pow_mul]
    simpa using (hv.order.pow j).mul_left cc.g.toNat
  rw [residue, hj, hpow, mod_eq_of_lt (by omega)]

/-- A collision hashes back to the same value. -/
theorem cHash_collision (sha256 : Bytes → Uint256) (hv : cc.Valid) {h : ℤ} (hh : 0 ≤ h ∧ h < cc.q) (m₂ : ℤ) :
    cHash sha256 cc m₂ (collision sha256 cc h m₂).1 (collision sha256 cc h m₂).2 =
      some (integerToSHA256 sha256 h, h) := by
  obtain ⟨hr, hs⟩ := collision_bounds sha256 hv hh m₂
  have hg := hv.generator
  rw [cHash_eq hv hr hs, residue_collision hv, Int.toNat_of_nonneg hg.1.le]
  simp only [collision]
  rw [foldResidue_add hh ⟨hg.1.le, hg.2⟩]

end Valid

/-- The hash of every message lies in `[0, q)`, and `hCol` finds randomness in `[0, q)` that gives
any other message the same hash, so that `cHash` and `hVer` abort nowhere. -/
theorem cHash_hCol_collision (sha256 : Bytes → Uint256) (m₁ r₁ s₁ m₂ : ℤ)
    (hr₁ : 0 ≤ r₁ ∧ r₁ < cChamHash.q) (hs₁ : 0 ≤ s₁ ∧ s₁ < cChamHash.q) :
    ∃ sh h r₂ s₂, cHash sha256 cChamHash m₁ r₁ s₁ = some (sh, h) ∧
      hCol sha256 cChamHash h m₁ r₁ s₁ m₂ = some (r₂, s₂) ∧
      (0 ≤ h ∧ h < cChamHash.q) ∧ (0 ≤ r₂ ∧ r₂ < cChamHash.q) ∧ (0 ≤ s₂ ∧ s₂ < cChamHash.q) ∧
      cHash sha256 cChamHash m₂ r₂ s₂ = some (sh, h) ∧
      hVer sha256 cChamHash h m₁ r₁ s₁ m₂ r₂ s₂ = some () := by
  have hv := cChamHash_valid
  let h := foldResidue cChamHash r₁ (residue cChamHash (hashInput sha256 m₁ r₁) s₁)
  have hh : 0 ≤ h ∧ h < cChamHash.q := foldResidue_bounds hv hr₁ _ _
  obtain ⟨hr₂, hs₂⟩ := collision_bounds sha256 hv hh m₂
  have hcol := cHash_collision sha256 hv hh m₂
  refine ⟨integerToSHA256 sha256 h, h, (collision sha256 cChamHash h m₂).1,
    (collision sha256 cChamHash h m₂).2, cHash_eq hv hr₁ hs₁ m₁, hCol_eq hv h m₁ r₁ s₁ m₂,
    hh, hr₂, hs₂, hcol, ?_⟩
  simp [hVer, hcol]

theorem cHash_hCol_collision_zero :
    (0 ≤ (0 : ℤ) ∧ (0 : ℤ) < cChamHash.q) ∧
    ∃ sh h r₂ s₂, cHash cSHA256 cChamHash 42 0 0 = some (sh, h) ∧
      hCol cSHA256 cChamHash h 42 0 0 33 = some (r₂, s₂) ∧
      (0 ≤ h ∧ h < cChamHash.q) ∧ (0 ≤ r₂ ∧ r₂ < cChamHash.q) ∧ (0 ≤ s₂ ∧ s₂ < cChamHash.q) ∧
      cHash cSHA256 cChamHash 33 r₂ s₂ = some (sh, h) ∧
      hVer cSHA256 cChamHash h 42 0 0 33 r₂ s₂ = some () :=
  ⟨by decide +kernel, cHash_hCol_collision _ 42 0 0 33 (by decide +kernel) (by decide +kernel)⟩

end CChamHash

end MutableBitcoin
