import MutableBitcoin.Lib.Limbs
import Mathlib.Tactic.Linarith
import Mathlib.Data.Nat.ModEq

/-!
# Arithmetic on 256-bit numbers

The operators of `base_uint` of `arith_uint256.h` and `arith_uint256.cpp`, limb by limb. Each is the operation
on numbers modulo `2 ^ BITS`, except `x *= x`, where the operand is the object that receives the product.
-/

namespace MutableBitcoin
open Lib Nat

/-- `base_uint<BITS>`, the lowest limb first. -/
structure BaseUint (width : ℕ) where
  pn : List UInt32
  length_pn : pn.length = width
deriving DecidableEq

abbrev ArithUint256 := BaseUint 8

/-- `uint_error`. -/
inductive UintError
  | divisionByZero
deriving DecidableEq

namespace BaseUint

variable {width : ℕ}

def value (x : BaseUint width) : ℕ := limbValue x.pn

def limb (x : BaseUint width) (i : ℕ) : UInt32 := x.pn.getD i 0

lemma length_setLimb (x : BaseUint width) (i : ℕ) (a : UInt32) : (x.pn.set i a).length = width :=
  List.length_set.trans x.length_pn

def setLimb (x : BaseUint width) (i : ℕ) (a : UInt32) : BaseUint width := ⟨x.pn.set i a, x.length_setLimb i a⟩

/-- `pn[i] |= a` -/
def orLimb (x : BaseUint width) (i : ℕ) (a : UInt32) : BaseUint width := x.setLimb i (x.limb i ||| a)

lemma length_zero (width : ℕ) : (List.replicate width (0 : UInt32)).length = width := List.length_replicate

def zero (width : ℕ) : BaseUint width := ⟨List.replicate width 0, length_zero width⟩

section Operators

def ofUInt64 (width : ℕ) (b : UInt64) : BaseUint width :=
  ((zero width).setLimb 0 b.toUInt32).setLimb 1 (b >>> 32).toUInt32

def shiftLeftStep (a : BaseUint width) (k : ℕ) (shift : UInt32) (x : BaseUint width) (i : ℕ) : BaseUint width :=
  let x := if i + k + 1 < width ∧ shift ≠ 0 then x.orLimb (i + k + 1) (a.limb i >>> (32 - shift)) else x
  if i + k < width then x.orLimb (i + k) (a.limb i <<< shift) else x

/-- `operator<<=` -/
def shiftLeft (a : BaseUint width) (shift : UInt32) : BaseUint width :=
  (List.range width).foldl (shiftLeftStep a (shift / 32).toNat (shift % 32)) (zero width)

def shiftRightStep (a : BaseUint width) (k : ℕ) (shift : UInt32) (x : BaseUint width) (i : ℕ) : BaseUint width :=
  let x := if k + 1 ≤ i ∧ shift ≠ 0 then x.orLimb (i - k - 1) (a.limb i <<< (32 - shift)) else x
  if k ≤ i then x.orLimb (i - k) (a.limb i >>> shift) else x

/-- `operator>>=` -/
def shiftRight (a : BaseUint width) (shift : UInt32) : BaseUint width :=
  (List.range width).foldl (shiftRightStep a (shift / 32).toNat (shift % 32)) (zero width)

lemma length_writeSums (x : BaseUint width) (summand : List UInt32 → ℕ → UInt64) (j m : ℕ) :
    (carryLoop summand j m 0 0 x.pn).length = width :=
  (length_carryLoop m 0 0 x.pn).trans x.length_pn

/-- Writes `m` sums from place `j` on, with their carries. -/
def writeSums (x : BaseUint width) (summand : List UInt32 → ℕ → UInt64) (j m : ℕ) : BaseUint width :=
  ⟨carryLoop summand j m 0 0 x.pn, x.length_writeSums summand j m⟩

/-- `operator+=` -/
def add (a b : BaseUint width) : BaseUint width :=
  a.writeSums (fun pn i => (pn.getD i 0).toUInt64 + (b.limb i).toUInt64) 0 width

lemma length_complement (a : BaseUint width) : (a.pn.map (~~~ ·)).length = width :=
  (List.length_map _).trans a.length_pn

/-- `operator~` -/
def complement (a : BaseUint width) : BaseUint width := ⟨a.pn.map (~~~ ·), a.length_complement⟩

/-- The loop of `operator++` over `m` limbs from place `i` on. -/
def incrementLoop : ℕ → ℕ → BaseUint width → BaseUint width
  | 0, _, x => x
  | m + 1, i, x =>
    let x' := x.setLimb i (x.limb i + 1)
    if x'.limb i = 0 then incrementLoop m (i + 1) x' else x'

def increment (a : BaseUint width) : BaseUint width := incrementLoop width 0 a

/-- `operator-` of one argument. -/
def neg (a : BaseUint width) : BaseUint width := a.complement.increment

/-- `operator-=` -/
def sub (a b : BaseUint width) : BaseUint width := a.add b.neg

/-- `operator*=` by a `uint32_t`. -/
def mulWord (a : BaseUint width) (b32 : UInt32) : BaseUint width :=
  a.writeSums (fun pn i => b32.toUInt64 * (pn.getD i 0).toUInt64) 0 width

/-- The operand of `operator*=`: another object, or the one that is assigned to. -/
inductive Operand (width : ℕ)
  | other (b : BaseUint width)
  | this

/-- A limb of the operand, when the object assigned to has the limbs `pn`. -/
def Operand.read : Operand width → List UInt32 → ℕ → UInt32
  | .other b, _, i => b.limb i
  | .this, pn, i => pn.getD i 0

/-- The inner loop of `operator*=`, with the copy `a` of the first factor. -/
def mulRow (a : BaseUint width) (b : Operand width) (x : BaseUint width) (j : ℕ) : BaseUint width :=
  x.writeSums (fun pn i => (pn.getD (i + j) 0).toUInt64 + (a.limb j).toUInt64 * (b.read pn i).toUInt64)
    j (width - j)

/-- `operator*=` by a `base_uint`. -/
def mulAssign (a : BaseUint width) (b : Operand width) : BaseUint width :=
  (List.range width).foldl (mulRow a b) (zero width)

/-- `operator*`, which multiplies a copy. -/
def mul (a b : BaseUint width) : BaseUint width := a.mulAssign (.other b)

def compareFrom (a b : BaseUint width) : ℕ → ℤ
  | 0 => 0
  | i + 1 =>
    if a.limb i < b.limb i then -1
    else if b.limb i < a.limb i then 1
    else compareFrom a b i

def compareTo (a b : BaseUint width) : ℤ := compareFrom a b width

def equalTo (a : BaseUint width) (b : UInt64) : Bool :=
  (List.range' 2 (width - 2)).all (fun i => a.limb i == 0) && (a.limb 1).toUInt64 == b >>> 32 &&
    (a.limb 0).toUInt64 == b &&& 0xffffffff

/-- The inner loop of `bits`: the highest bit from `nbits` down, plus one. -/
def limbBits (a : UInt32) : ℕ → ℕ
  | 0 => 1
  | nbits + 1 => if a &&& 1 <<< UInt32.ofNat (nbits + 1) ≠ 0 then nbits + 1 + 1 else limbBits a nbits

def bitsFrom (x : BaseUint width) : ℕ → ℕ
  | 0 => 0
  | pos + 1 => if x.limb pos ≠ 0 then 32 * pos + limbBits (x.limb pos) 31 else bitsFrom x pos

def bits (x : BaseUint width) : ℕ := bitsFrom x width

/-- The loop of `operator/=` with `shift + 1` turns to go. -/
def divLoop : ℕ → BaseUint width → BaseUint width → BaseUint width → BaseUint width
  | 0, _, _, x => x
  | shift + 1, num, div, x =>
    if 0 ≤ num.compareTo div then
      divLoop shift (num.sub div) (div.shiftRight 1) (x.orLimb (shift / 32) (1 <<< UInt32.ofNat (shift &&& 31)))
    else divLoop shift num (div.shiftRight 1) x

/-- `operator/=` -/
def div (a b : BaseUint width) : Except UintError (BaseUint width) :=
  let num_bits := a.bits
  let div_bits := b.bits
  if div_bits = 0 then .error .divisionByZero
  else if num_bits < div_bits then .ok (zero width)
  else .ok (divLoop (num_bits - div_bits + 1) a (b.shiftLeft (UInt32.ofNat (num_bits - div_bits))) (zero width))

def getLow64 (x : BaseUint width) : UInt64 := (x.limb 0).toUInt64 ||| (x.limb 1).toUInt64 <<< 32

end Operators

end BaseUint

end MutableBitcoin

/-! ## The numbers of the operators -/

namespace MutableBitcoin
open Lib Finset Nat

namespace BaseUint

variable {width : ℕ} {a b x : BaseUint width}

lemma value_lt (x : BaseUint width) : x.value < 2 ^ (32 * width) := by
  have h := limbValue_lt x.pn
  rw [x.length_pn] at h
  exact h

lemma value_injective (h : a.value = b.value) : a = b := by
  obtain ⟨pn, hpn⟩ := a
  obtain ⟨pn', hpn'⟩ := b
  obtain rfl : pn = pn' := limbValue_injective (hpn.trans hpn'.symm) h
  rfl

lemma value_zero (width : ℕ) : (zero width).value = 0 := limbValue_replicate_zero width

lemma value_eq_sum (x : BaseUint width) : x.value = ∑ i ∈ range width, 2 ^ (32 * i) * (x.limb i).toNat := by
  have h := limbValue_eq_sum x.pn
  rw [x.length_pn] at h
  exact h

lemma testBit_value (x : BaseUint width) (n : ℕ) : x.value.testBit n = (x.limb (n / 32)).toNat.testBit (n % 32) :=
  testBit_limbValue x.pn n

lemma limb_of_le {i : ℕ} (h : width ≤ i) : x.limb i = 0 :=
  List.getD_eq_default _ _ (x.length_pn.trans_le h)

lemma limb_zero (i : ℕ) : (zero width).limb i = 0 := by
  rw [limb, zero, List.getD_eq_getElem?_getD, List.getElem?_replicate]
  split_ifs <;> rfl

lemma limb_setLimb {i : ℕ} (h : i < width) (v : UInt32) (j : ℕ) :
    (x.setLimb i v).limb j = if i = j then v else x.limb j := by
  rw [limb, setLimb, List.getD_eq_getElem?_getD, List.getElem?_set, x.length_pn]
  split_ifs with hj
  · rfl
  · rfl

lemma testBit_orLimb {i : ℕ} (h : i < width) (v : UInt32) (j r : ℕ) :
    ((x.orLimb i v).limb j).toNat.testBit r = true ↔
      (x.limb j).toNat.testBit r = true ∨ (i = j ∧ v.toNat.testBit r = true) := by
  rw [orLimb, limb_setLimb h]
  split_ifs with hj
  · subst hj
    rw [UInt32.toNat_or, testBit_or, Bool.or_eq_true]
    tauto
  · tauto

section Shifts

lemma testBit_foldl {step : BaseUint width → ℕ → BaseUint width} {P : ℕ → ℕ → ℕ → Prop} {l : List ℕ}
    (hstep : ∀ x, ∀ i ∈ l, ∀ j r,
      ((step x i).limb j).toNat.testBit r = true ↔ (x.limb j).toNat.testBit r = true ∨ P i j r)
    (x : BaseUint width) (j r : ℕ) :
    ((l.foldl step x).limb j).toNat.testBit r = true ↔
      (x.limb j).toNat.testBit r = true ∨ ∃ i ∈ l, P i j r := by
  induction l generalizing x with
  | nil => simp
  | cons i l ih =>
    rw [List.foldl_cons, ih fun x k hk => hstep x k (List.mem_cons_of_mem _ hk), hstep x i List.mem_cons_self,
      List.exists_mem_cons_iff, or_assoc]

lemma testBit_limb_lt {i r : ℕ} (h : (x.limb i).toNat.testBit r = true) : i < width ∧ r < 32 := by
  constructor
  · by_contra hi
    rw [limb_of_le (not_lt.mp hi)] at h
    simp at h
  · by_contra hr
    rw [Nat.testBit_lt_two_pow ((x.limb i).toNat_lt.trans_le (Nat.pow_le_pow_right (by decide) (not_lt.mp hr)))] at h
    exact Bool.false_ne_true h

lemma testBit_shl {v s : UInt32} (hs : s.toNat < 32) (r : ℕ) :
    (v <<< s).toNat.testBit r = true ↔ r < 32 ∧ s.toNat ≤ r ∧ v.toNat.testBit (r - s.toNat) = true := by
  rw [UInt32.toNat_shiftLeft, mod_eq_of_lt hs, testBit_mod_two_pow, testBit_shiftLeft]
  simp

lemma testBit_shr {v s : UInt32} (hs : s.toNat < 32) (r : ℕ) :
    (v >>> s).toNat.testBit r = true ↔ v.toNat.testBit (s.toNat + r) = true := by
  rw [UInt32.toNat_shiftRight, mod_eq_of_lt hs, testBit_shiftRight]

lemma toNat_thirtyTwo_sub {s : UInt32} (hs : s.toNat < 32) : (32 - s).toNat = 32 - s.toNat :=
  UInt32.toNat_sub_of_le 32 s (UInt32.le_iff_toNat_le.mpr hs.le)

lemma testBit_orLimb_if {c : Prop} [Decidable c] {i : ℕ} (h : c → i < width) (v : UInt32) (j r : ℕ) :
    ((if c then x.orLimb i v else x).limb j).toNat.testBit r = true ↔
      (x.limb j).toNat.testBit r = true ∨ (c ∧ i = j ∧ v.toNat.testBit r = true) := by
  split_ifs with hc
  · rw [testBit_orLimb (h hc)]
    tauto
  · tauto

lemma ne_zero_iff_toNat (s : UInt32) : s ≠ 0 ↔ s.toNat ≠ 0 := not_congr UInt32.toNat_inj.symm

lemma testBit_shiftLeftStep {k : ℕ} {s : UInt32} (hs : s.toNat < 32) (x : BaseUint width) (i j r : ℕ) :
    ((shiftLeftStep a k s x i).limb j).toNat.testBit r = true ↔ (x.limb j).toNat.testBit r = true ∨
      (j < width ∧ ∃ r' < 32, r < 32 ∧ 32 * j + r = 32 * i + r' + (32 * k + s.toNat) ∧
        (a.limb i).toNat.testBit r' = true) := by
  rw [shiftLeftStep]
  rw [testBit_orLimb_if id, testBit_orLimb_if And.left, testBit_shl hs, or_assoc, ne_zero_iff_toNat]
  refine or_congr_right ⟨?_, ?_⟩
  · rintro (⟨⟨hj, hpos⟩, rfl, hbit⟩ | ⟨hj, rfl, hr, hle, hbit⟩)
    · rw [testBit_shr (by rw [toNat_thirtyTwo_sub hs]; omega), toNat_thirtyTwo_sub hs] at hbit
      have hlt := (testBit_limb_lt hbit).2
      exact ⟨hj, _, hlt, by omega, by omega, hbit⟩
    · exact ⟨hj, _, (testBit_limb_lt hbit).2, hr, by omega, hbit⟩
  · rintro ⟨hj, r', hr', hr, heq, hbit⟩
    rcases lt_or_ge (r' + s.toNat) 32 with hlow | hhigh
    · obtain rfl : j = i + k := by omega
      obtain rfl : r' = r - s.toNat := by omega
      exact Or.inr ⟨hj, rfl, hr, by omega, hbit⟩
    · obtain rfl : j = i + k + 1 := by omega
      refine Or.inl ⟨⟨hj, by omega⟩, rfl, ?_⟩
      rw [testBit_shr (by rw [toNat_thirtyTwo_sub hs]; omega), toNat_thirtyTwo_sub hs,
        show 32 - s.toNat + r = r' by omega]
      exact hbit

lemma testBit_shiftRightStep {k i : ℕ} {s : UInt32} (hi : i < width) (hs : s.toNat < 32) (x : BaseUint width)
    (j r : ℕ) :
    ((shiftRightStep a k s x i).limb j).toNat.testBit r = true ↔ (x.limb j).toNat.testBit r = true ∨
      (∃ r' < 32, r < 32 ∧ 32 * i + r' = 32 * j + r + (32 * k + s.toNat) ∧
        (a.limb i).toNat.testBit r' = true) := by
  rw [shiftRightStep]
  rw [testBit_orLimb_if fun _ => by omega, testBit_orLimb_if fun _ => by omega, testBit_shr hs, or_assoc,
    ne_zero_iff_toNat]
  refine or_congr_right ⟨?_, ?_⟩
  · rintro (⟨⟨hk, hpos⟩, rfl, hbit⟩ | ⟨hk, rfl, hbit⟩)
    · rw [testBit_shl (by rw [toNat_thirtyTwo_sub hs]; omega), toNat_thirtyTwo_sub hs] at hbit
      obtain ⟨hr, hle, hbit⟩ := hbit
      exact ⟨_, (testBit_limb_lt hbit).2, hr, by omega, hbit⟩
    · have hlt := (testBit_limb_lt hbit).2
      exact ⟨_, hlt, by omega, by omega, hbit⟩
  · rintro ⟨r', hr', hr, heq, hbit⟩
    rcases lt_or_ge (r + s.toNat) 32 with hlow | hhigh
    · obtain rfl : i = j + k := by omega
      obtain rfl : r' = s.toNat + r := by omega
      exact Or.inr ⟨by omega, by omega, hbit⟩
    · obtain rfl : i = j + k + 1 := by omega
      refine Or.inl ⟨⟨by omega, by omega⟩, by omega, ?_⟩
      rw [testBit_shl (by rw [toNat_thirtyTwo_sub hs]; omega), toNat_thirtyTwo_sub hs,
        show r - (32 - s.toNat) = r' by omega]
      exact ⟨hr, by omega, hbit⟩

lemma shift_split (shift : UInt32) :
    shift.toNat = 32 * (shift / 32).toNat + (shift % 32).toNat ∧ (shift % 32).toNat < 32 := by
  rw [UInt32.toNat_div, UInt32.toNat_mod]
  exact ⟨(div_add_mod _ _).symm, mod_lt _ (by decide)⟩

theorem value_shiftLeft (a : BaseUint width) (shift : UInt32) :
    (a.shiftLeft shift).value = a.value * 2 ^ shift.toNat % 2 ^ (32 * width) := by
  obtain ⟨hsplit, hs⟩ := shift_split shift
  refine eq_of_testBit_eq fun n => Bool.eq_iff_iff.mpr ?_
  rw [testBit_mod_two_pow, testBit_mul_two_pow, testBit_value, shiftLeft,
    testBit_foldl fun x i _ j r => testBit_shiftLeftStep hs x i j r, limb_zero]
  simp only [Bool.and_eq_true, decide_eq_true_eq, UInt32.toNat_zero, zero_testBit, Bool.false_eq_true, false_or,
    List.mem_range]
  constructor
  · rintro ⟨i, hi, hj, r', hr', -, heq, hbit⟩
    refine ⟨by omega, by omega, ?_⟩
    rw [testBit_value, show (n - shift.toNat) / 32 = i by omega, show (n - shift.toNat) % 32 = r' by omega]
    exact hbit
  · rintro ⟨hn, hle, hbit⟩
    rw [testBit_value] at hbit
    exact ⟨_, (testBit_limb_lt hbit).1, by omega, _, mod_lt _ (by decide), mod_lt _ (by decide), by omega,
      hbit⟩

theorem value_shiftRight (a : BaseUint width) (shift : UInt32) :
    (a.shiftRight shift).value = a.value / 2 ^ shift.toNat := by
  obtain ⟨hsplit, hs⟩ := shift_split shift
  refine eq_of_testBit_eq fun n => Bool.eq_iff_iff.mpr ?_
  rw [testBit_div_two_pow, testBit_value, shiftRight,
    testBit_foldl fun x i hi j r => testBit_shiftRightStep (List.mem_range.mp hi) hs x j r, limb_zero]
  simp only [UInt32.toNat_zero, zero_testBit, Bool.false_eq_true, false_or, List.mem_range]
  constructor
  · rintro ⟨i, hi, r', hr', -, heq, hbit⟩
    rw [testBit_value, show (n + shift.toNat) / 32 = i by omega, show (n + shift.toNat) % 32 = r' by omega]
    exact hbit
  · intro hbit
    rw [testBit_value] at hbit
    exact ⟨_, (testBit_limb_lt hbit).1, _, mod_lt _ (by decide), mod_lt _ (by decide), by omega, hbit⟩

end Shifts

section Carries

lemma limbValue_carryLoop_all {summand : List UInt32 → ℕ → UInt64} (s : ℕ → ℕ) (a : BaseUint width)
    (hs : ∀ pn k, pn.getD k 0 = a.limb k → (summand pn k).toNat = s k ∧ s k ≤ 2 ^ 64 - 2 ^ 32) :
    limbValue (carryLoop summand 0 width 0 0 a.pn) = (∑ k ∈ range width, 2 ^ (32 * k) * s k) % 2 ^ (32 * width) := by
  rw [limbValue_carryLoop summand s (by rw [a.length_pn]; omega) (by decide) fun pn k _ hsame => hs pn k (hsame k le_rfl)]
  simp [limbValue]

theorem value_add (a b : BaseUint width) : (a.add b).value = (a.value + b.value) % 2 ^ (32 * width) := by
  rw [value, add, writeSums, limbValue_carryLoop_all fun k => (a.limb k).toNat + (b.limb k).toNat]
  · simp only [mul_add]
    rw [sum_add_distrib, ← value_eq_sum, ← value_eq_sum]
  · intro pn k hk
    have ha := (a.limb k).toNat_lt
    have hb := (b.limb k).toNat_lt
    rw [hk, UInt64.toNat_add, UInt32.toNat_toUInt64, UInt32.toNat_toUInt64, mod_eq_of_lt (by omega)]
    exact ⟨rfl, by omega⟩

lemma toNat_mul_limbs (a b : UInt32) :
    (a.toUInt64 * b.toUInt64).toNat = a.toNat * b.toNat ∧ a.toNat * b.toNat ≤ (2 ^ 32 - 1) * (2 ^ 32 - 1) := by
  have hle : a.toNat * b.toNat ≤ (2 ^ 32 - 1) * (2 ^ 32 - 1) :=
    Nat.mul_le_mul (Nat.le_pred_of_lt a.toNat_lt) (Nat.le_pred_of_lt b.toNat_lt)
  refine ⟨?_, hle⟩
  rw [UInt64.toNat_mul, UInt32.toNat_toUInt64, UInt32.toNat_toUInt64, mod_eq_of_lt (by omega)]

theorem value_mulWord (a : BaseUint width) (b32 : UInt32) :
    (a.mulWord b32).value = a.value * b32.toNat % 2 ^ (32 * width) := by
  rw [value, mulWord, writeSums, limbValue_carryLoop_all fun k => b32.toNat * (a.limb k).toNat]
  · rw [value_eq_sum, sum_mul]
    congr 1
    exact sum_congr rfl fun k _ => by ring
  · intro pn k hk
    obtain ⟨hmul, hle⟩ := toNat_mul_limbs b32 (a.limb k)
    rw [hk, hmul]
    exact ⟨rfl, by omega⟩

lemma sum_limbs_add {n j : ℕ} (h : n + j = width) (x : BaseUint width) :
    ∑ k ∈ range n, 2 ^ (32 * k) * (x.limb (k + j)).toNat = limbValue (x.pn.drop j) := by
  rw [limbValue_eq_sum, List.length_drop, x.length_pn, show width - j = n by omega]
  refine sum_congr rfl fun k _ => ?_
  rw [List.getD_eq_getElem?_getD, List.getElem?_drop, add_comm j, ← List.getD_eq_getElem?_getD]
  rfl

lemma value_split {j : ℕ} (hj : j ≤ width) (x : BaseUint width) :
    x.value = limbValue (x.pn.take j) + 2 ^ (32 * j) * limbValue (x.pn.drop j) := by
  have happend := @limbValue_append (x.pn.take j) (x.pn.drop j)
  rw [List.take_append_drop, List.length_take, x.length_pn, min_eq_left hj] at happend
  exact happend

lemma sum_limbs {n : ℕ} (hn : n ≤ width) (x : BaseUint width) :
    ∑ k ∈ range n, 2 ^ (32 * k) * (x.limb k).toNat = limbValue (x.pn.take n) := by
  rw [limbValue_eq_sum, List.length_take, x.length_pn, min_eq_left hn]
  refine sum_congr rfl fun k hk => ?_
  rw [List.getD_eq_getElem?_getD, List.getElem?_take_of_lt (mem_range.mp hk), ← List.getD_eq_getElem?_getD]
  rfl

lemma toNat_rowSummand (a b x : BaseUint width) (j k : ℕ) :
    ((x.limb (k + j)).toUInt64 + (a.limb j).toUInt64 * (b.limb k).toUInt64).toNat =
        (x.limb (k + j)).toNat + (a.limb j).toNat * (b.limb k).toNat ∧
      (x.limb (k + j)).toNat + (a.limb j).toNat * (b.limb k).toNat ≤ 2 ^ 64 - 2 ^ 32 := by
  obtain ⟨hmul, hle⟩ := toNat_mul_limbs (a.limb j) (b.limb k)
  have hx := (x.limb (k + j)).toNat_lt
  rw [UInt64.toNat_add, hmul, UInt32.toNat_toUInt64, mod_eq_of_lt (by omega)]
  exact ⟨rfl, by omega⟩

lemma value_mulRow_eq {n j : ℕ} (h : n + j = width) (a b x : BaseUint width) :
    (mulRow a (.other b) x j).value = limbValue (x.pn.take j) +
      2 ^ (32 * j) * ((limbValue (x.pn.drop j) + (a.limb j).toNat * limbValue (b.pn.take n)) % 2 ^ (32 * n)) := by
  have hlen := x.length_pn
  have hrow := limbValue_carryLoop
    (fun pn i => (pn.getD (i + j) 0).toUInt64 + (a.limb j).toUInt64 * (b.limb i).toUInt64)
    (fun k => (x.limb (k + j)).toNat + (a.limb j).toNat * (b.limb k).toNat)
    (show 0 + j + n = x.pn.length by omega) (show (0 : UInt64).toNat < 2 ^ 32 by decide)
    (fun pn k _ hsame => by
      rw [hsame (k + j) le_rfl]
      exact toNat_rowSummand a b x j k)
  have hsum : ∑ k ∈ range n, 2 ^ (32 * k) * ((x.limb (k + j)).toNat + (a.limb j).toNat * (b.limb k).toNat) =
      limbValue (x.pn.drop j) + (a.limb j).toNat * limbValue (b.pn.take n) := by
    simp only [mul_add, sum_add_distrib]
    rw [sum_limbs_add h, sum_congr rfl fun k _ => mul_left_comm (2 ^ (32 * k)) (a.limb j).toNat _, ← mul_sum,
      sum_limbs (show n ≤ width by omega)]
  simp only [zero_add, UInt64.toNat_zero, hsum] at hrow
  rw [mulRow, show width - j = n by omega]
  exact hrow

lemma value_mulRow {n j : ℕ} (h : n + j = width) (a b x : BaseUint width) :
    (mulRow a (.other b) x j).value ≡
      x.value + 2 ^ (32 * j) * ((a.limb j).toNat * b.value) [MOD 2 ^ (32 * width)] := by
  have hpow : 2 ^ (32 * width) = 2 ^ (32 * j) * 2 ^ (32 * n) := by
    rw [← pow_add, ← mul_add, add_comm, h]
  have hdrop : 2 ^ (32 * j) * ((a.limb j).toNat * (2 ^ (32 * n) * limbValue (b.pn.drop n))) ≡
      0 [MOD 2 ^ (32 * width)] := by
    rw [hpow, modEq_zero_iff_dvd]
    exact ⟨(a.limb j).toNat * limbValue (b.pn.drop n), by ring⟩
  have hb := value_split (show n ≤ width by omega) b
  have hx := value_split (show j ≤ width by omega) x
  rw [value_mulRow_eq h, hb, hx, ← mul_mod_mul_left, ← hpow]
  refine (Nat.ModEq.add_left _ (mod_modEq _ _)).trans ?_
  have hsum : limbValue (x.pn.take j) + 2 ^ (32 * j) * limbValue (x.pn.drop j) + 2 ^ (32 * j) *
      ((a.limb j).toNat * (limbValue (b.pn.take n) + 2 ^ (32 * n) * limbValue (b.pn.drop n))) =
      limbValue (x.pn.take j) +
        2 ^ (32 * j) * (limbValue (x.pn.drop j) + (a.limb j).toNat * limbValue (b.pn.take n)) +
        2 ^ (32 * j) * ((a.limb j).toNat * (2 ^ (32 * n) * limbValue (b.pn.drop n))) := by
    ring
  rw [hsum]
  exact (Nat.ModEq.add_left _ hdrop).symm

theorem value_mul (a b : BaseUint width) : (a.mul b).value = a.value * b.value % 2 ^ (32 * width) := by
  have hrows : ∀ m ≤ width, ((List.range m).foldl (mulRow a (.other b)) (zero width)).value ≡
      (∑ j ∈ range m, 2 ^ (32 * j) * (a.limb j).toNat) * b.value [MOD 2 ^ (32 * width)] := by
    intro m
    induction m with
    | zero =>
      intro _
      rw [List.range_zero, List.foldl_nil, value_zero, sum_range_zero, zero_mul]
    | succ m ih =>
      intro hm
      rw [List.range_succ, List.foldl_concat, sum_range_succ, add_mul, mul_assoc]
      exact (value_mulRow (show width - m + m = width by omega) a b _).trans
        (Nat.ModEq.add_right _ (ih (by omega)))
  have hall := hrows width le_rfl
  rw [← value_eq_sum] at hall
  exact (mod_eq_of_lt (value_lt _)).symm.trans hall

lemma value_setLimb {i : ℕ} (hi : i < width) (v : UInt32) :
    (x.setLimb i v).value + 2 ^ (32 * i) * (x.limb i).toNat = x.value + 2 ^ (32 * i) * v.toNat := by
  have hmem : i ∈ range width := mem_range.mpr hi
  have hrest : ∑ k ∈ (range width).erase i, 2 ^ (32 * k) * ((x.setLimb i v).limb k).toNat =
      ∑ k ∈ (range width).erase i, 2 ^ (32 * k) * (x.limb k).toNat :=
    sum_congr rfl fun k hk => by rw [limb_setLimb hi, if_neg (ne_of_mem_erase hk).symm]
  rw [value_eq_sum, value_eq_sum x, ← sum_erase_add _ _ hmem, ← sum_erase_add (range width) _ hmem, hrest,
    limb_setLimb hi, if_pos rfl]
  ring

lemma value_incrementLoop {m i : ℕ} (h : i + m = width) (x : BaseUint width) :
    (incrementLoop m i x).value ≡ x.value + 2 ^ (32 * i) [MOD 2 ^ (32 * width)] := by
  induction m generalizing i x with
  | zero =>
    obtain rfl : i = width := h
    rw [incrementLoop]
    exact (Nat.ModEq.add_left x.value (modEq_zero_iff_dvd.mpr dvd_rfl)).symm
  | succ m ih =>
    have hi : i < width := by omega
    have hset := value_setLimb (x := x) hi (x.limb i + 1)
    have hlt := (x.limb i).toNat_lt
    rw [incrementLoop, limb_setLimb hi, if_pos rfl]
    split_ifs with hcarry
    · have hmax : (x.limb i).toNat + 1 = 2 ^ 32 := by
        have hmod := congrArg UInt32.toNat hcarry
        rw [UInt32.toNat_add, UInt32.toNat_zero, UInt32.toNat_one] at hmod
        omega
      have hnext := ih (show i + 1 + m = width by omega) (x.setLimb i (x.limb i + 1))
      have hvalue : (x.setLimb i (x.limb i + 1)).value + 2 ^ (32 * (i + 1)) = x.value + 2 ^ (32 * i) := by
        rw [hcarry, UInt32.toNat_zero, mul_zero, add_zero] at hset
        rw [hcarry, ← hset, add_assoc, ← mul_add_one, hmax, ← pow_add, mul_add_one]
      rw [hvalue] at hnext
      exact hnext
    · have hsucc : (x.limb i + 1).toNat = (x.limb i).toNat + 1 := by
        rw [← UInt32.toNat_inj, UInt32.toNat_add, UInt32.toNat_zero, UInt32.toNat_one] at hcarry
        rw [UInt32.toNat_add, UInt32.toNat_one]
        omega
      rw [hsucc, mul_add_one, ← add_assoc, add_right_comm] at hset
      rw [add_right_cancel hset]

theorem value_increment (a : BaseUint width) : a.increment.value = (a.value + 1) % 2 ^ (32 * width) := by
  have hloop := value_incrementLoop (zero_add width) a
  rw [mul_zero, pow_zero] at hloop
  exact (mod_eq_of_lt (value_lt _)).symm.trans hloop

lemma limbValue_map_not (l : List UInt32) : limbValue (l.map (~~~ ·)) + limbValue l + 1 = 2 ^ (32 * l.length) := by
  induction l with
  | nil => rfl
  | cons a l ih =>
    have ha := a.toNat_lt
    have hnot : (~~~a).toNat = 2 ^ 32 - 1 - a.toNat := UInt32.toNat_not a
    rw [List.map_cons, limbValue, limbValue, List.length_cons, mul_add_one, add_comm (32 * l.length), pow_add,
      ← ih]
    omega

theorem value_complement (a : BaseUint width) : a.complement.value + a.value + 1 = 2 ^ (32 * width) := by
  have h := limbValue_map_not a.pn
  rw [a.length_pn] at h
  exact h

theorem value_neg (a : BaseUint width) : a.neg.value = (2 ^ (32 * width) - a.value) % 2 ^ (32 * width) := by
  have hnot := value_complement a
  rw [neg, value_increment, show a.complement.value + 1 = 2 ^ (32 * width) - a.value by omega]

/-- A difference that is not negative is exact. -/
theorem value_sub (h : b.value ≤ a.value) : (a.sub b).value = a.value - b.value := by
  have ha := value_lt a
  rw [sub, value_add, value_neg, Nat.add_mod_mod, ← Nat.add_sub_assoc (value_lt b).le, Nat.add_comm a.value,
    Nat.add_sub_assoc h, Nat.add_mod_left, Nat.mod_eq_of_lt (by omega)]

/-- The first factor is set to zero before the other one is read. -/
theorem mulAssign_this (a : BaseUint width) : a.mulAssign .this = zero width := by
  have hrow : ∀ j, mulRow a .this (zero width) j = zero width := by
    intro j
    have hloop : ∀ m i, carryLoop (fun pn i => (pn.getD (i + j) 0).toUInt64 +
        (a.limb j).toUInt64 * ((Operand.this : Operand width).read pn i).toUInt64) j m i 0
        (List.replicate width 0) = List.replicate width 0 := by
      intro m
      induction m with
      | zero =>
        intro i
        rfl
      | succ m ih =>
        intro i
        have hzero : ∀ k, (List.replicate width (0 : UInt32)).getD k 0 = 0 := limb_zero
        have hsum : (0 : UInt64) + (((List.replicate width (0 : UInt32)).getD (i + j) 0).toUInt64 +
            (a.limb j).toUInt64 * ((Operand.this : Operand width).read (List.replicate width 0) i).toUInt64) = 0 := by
          rw [Operand.read, hzero, hzero, show (0 : UInt32).toUInt64 = 0 from rfl, UInt64.mul_zero, UInt64.add_zero,
            UInt64.add_zero]
        have hset : (List.replicate width (0 : UInt32)).set (i + j) 0 = List.replicate width 0 := by
          refine List.ext_getElem (List.length_set) fun k hk _ => ?_
          rw [List.getElem_set, List.getElem_replicate, ite_self]
        rw [carryLoop, hsum]
        exact (congrArg _ hset).trans (ih (i + 1))
    exact value_injective (congrArg limbValue (hloop (width - j) 0))
  have hrows : ∀ l : List ℕ, l.foldl (mulRow a .this) (zero width) = zero width := by
    intro l
    induction l with
    | nil => rfl
    | cons j l ih => rw [List.foldl_cons, hrow, ih]
  exact hrows (List.range width)

end Carries

section Comparison

lemma compareFrom_spec {n : ℕ} (hn : n ≤ width) (a b : BaseUint width) :
    (compareFrom a b n = -1 ∧ limbValue (a.pn.take n) < limbValue (b.pn.take n)) ∨
    (compareFrom a b n = 0 ∧ limbValue (a.pn.take n) = limbValue (b.pn.take n)) ∨
    (compareFrom a b n = 1 ∧ limbValue (b.pn.take n) < limbValue (a.pn.take n)) := by
  induction n with
  | zero => exact Or.inr (Or.inl ⟨rfl, rfl⟩)
  | succ n ih =>
    have ha := limbValue_take_succ (l := a.pn) (n := n) (by rw [a.length_pn]; exact hn)
    have hb := limbValue_take_succ (l := b.pn) (n := n) (by rw [b.length_pn]; exact hn)
    have halt := limbValue_lt (a.pn.take n)
    have hblt := limbValue_lt (b.pn.take n)
    rw [List.length_take, a.length_pn, min_eq_left (by omega)] at halt
    rw [List.length_take, b.length_pn, min_eq_left (by omega)] at hblt
    have hlimb : ∀ u v : UInt32, u < v → 2 ^ (32 * n) * u.toNat + 2 ^ (32 * n) ≤ 2 ^ (32 * n) * v.toNat := by
      intro u v huv
      rw [← mul_add_one]
      exact mul_le_mul_left _ (UInt32.lt_iff_toNat_lt.mp huv)
    rw [compareFrom, ha, hb]
    change _ = _ ∧ _ + 2 ^ (32 * n) * (a.limb n).toNat < _ + 2 ^ (32 * n) * (b.limb n).toNat ∨
      _ = _ ∧ _ + 2 ^ (32 * n) * (a.limb n).toNat = _ + 2 ^ (32 * n) * (b.limb n).toNat ∨
      _ = _ ∧ _ + 2 ^ (32 * n) * (b.limb n).toNat < _ + 2 ^ (32 * n) * (a.limb n).toNat
    split_ifs with hless hmore
    · have := hlimb _ _ hless
      exact Or.inl ⟨rfl, by omega⟩
    · have := hlimb _ _ hmore
      exact Or.inr (Or.inr ⟨rfl, by omega⟩)
    · have heq : a.limb n = b.limb n := by
        rw [UInt32.lt_iff_toNat_lt] at hless hmore
        exact UInt32.toNat_inj.mp (by omega)
      rw [heq]
      obtain ⟨hcmp, h⟩ | ⟨hcmp, h⟩ | ⟨hcmp, h⟩ := ih (by omega)
      · exact Or.inl ⟨hcmp, by omega⟩
      · exact Or.inr (Or.inl ⟨hcmp, by omega⟩)
      · exact Or.inr (Or.inr ⟨hcmp, by omega⟩)

lemma compareTo_spec (a b : BaseUint width) :
    (a.compareTo b = -1 ∧ a.value < b.value) ∨ (a.compareTo b = 0 ∧ a.value = b.value) ∨
      (a.compareTo b = 1 ∧ b.value < a.value) := by
  have h := compareFrom_spec le_rfl a b
  rw [List.take_of_length_le a.length_pn.le, List.take_of_length_le b.length_pn.le] at h
  exact h

theorem compareTo_nonneg : 0 ≤ a.compareTo b ↔ b.value ≤ a.value := by
  obtain ⟨hcmp, h⟩ | ⟨hcmp, h⟩ | ⟨hcmp, h⟩ := compareTo_spec a b <;> omega

theorem compareTo_pos : 0 < a.compareTo b ↔ b.value < a.value := by
  obtain ⟨hcmp, h⟩ | ⟨hcmp, h⟩ | ⟨hcmp, h⟩ := compareTo_spec a b <;> omega

end Comparison

section Bits

lemma size_eq {n k : ℕ} (hle : 2 ^ k ≤ n) (hlt : n < 2 ^ (k + 1)) : Nat.size n = k + 1 :=
  le_antisymm (size_le.mpr hlt) (lt_size.mpr hle)

lemma and_oneShift_ne_zero (a : UInt32) {n : ℕ} (hn : n < 32) :
    a &&& 1 <<< UInt32.ofNat n ≠ 0 ↔ a.toNat.testBit n = true := by
  have hshift : (1 <<< UInt32.ofNat n : UInt32).toNat = 2 ^ n := by
    have hlt : 2 ^ n < 2 ^ 32 := Nat.pow_lt_pow_right (by decide) hn
    rw [UInt32.toNat_shiftLeft, UInt32.toNat_one, UInt32.toNat_ofNat', mod_eq_of_lt (show n < 2 ^ 32 by omega),
      mod_eq_of_lt hn, shiftLeft_eq, one_mul, mod_eq_of_lt hlt]
  rw [ne_zero_iff_toNat, UInt32.toNat_and, hshift, and_two_pow]
  cases a.toNat.testBit n <;> simp

lemma limbBits_eq {a : UInt32} (ha : a ≠ 0) {n : ℕ} (hn : n < 32) (hlt : a.toNat < 2 ^ (n + 1)) :
    limbBits a n = Nat.size a.toNat := by
  have hpos := (ne_zero_iff_toNat a).mp ha
  induction n with
  | zero =>
    have hone : a.toNat = 1 := by omega
    rw [limbBits, hone, size_one]
  | succ n ih =>
    rw [limbBits]
    simp only [and_oneShift_ne_zero a hn]
    split_ifs with hbit
    · exact (size_eq (ge_two_pow_of_testBit hbit) hlt).symm
    · refine ih (by omega) (lt_pow_two_of_testBit _ fun i hi => ?_)
      rcases eq_or_lt_of_le hi with rfl | hgt
      · exact Bool.eq_false_iff.mpr hbit
      · exact Nat.testBit_lt_two_pow (hlt.trans_le (Nat.pow_le_pow_right (by decide) hgt))

lemma bitsFrom_eq {n : ℕ} (hn : n ≤ width) (x : BaseUint width) :
    bitsFrom x n = Nat.size (limbValue (x.pn.take n)) := by
  induction n with
  | zero => rfl
  | succ n ih =>
    have htake := limbValue_take_succ (l := x.pn) (n := n) (by rw [x.length_pn]; exact hn)
    have hlow := limbValue_lt (x.pn.take n)
    rw [List.length_take, x.length_pn, min_eq_left (by omega)] at hlow
    rw [bitsFrom, htake, show x.pn.getD n 0 = x.limb n from rfl]
    split_ifs with hzero
    · have hpos : (x.limb n).toNat ≠ 0 := (ne_zero_iff_toNat _).mp hzero
      obtain ⟨k, hk⟩ : ∃ k, Nat.size (x.limb n).toNat = k + 1 :=
        exists_eq_succ_of_ne_zero fun h => hpos (size_eq_zero.mp h)
      have hle : 2 ^ k ≤ (x.limb n).toNat := lt_size.mp (by omega)
      have hlt : (x.limb n).toNat + 1 ≤ 2 ^ (k + 1) := size_le.mp hk.le
      have hle' := mul_le_mul_left (2 ^ (32 * n)) hle
      have hlt' := mul_le_mul_left (2 ^ (32 * n)) hlt
      rw [← pow_add] at hle' hlt'
      rw [limbBits_eq hzero (by decide) (x.limb n).toNat_lt, hk]
      rw [mul_add_one] at hlt'
      exact (size_eq (hle'.trans (le_add_left _ _)) (by rw [← add_assoc] at hlt'; omega)).symm
    · rw [not_not.mp hzero, UInt32.toNat_zero, mul_zero, add_zero]
      exact ih (by omega)

theorem bits_eq (x : BaseUint width) : x.bits = Nat.size x.value := by
  have h := bitsFrom_eq le_rfl x
  rw [List.take_of_length_le x.length_pn.le] at h
  exact h

end Bits

section Division

lemma value_orLimb_oneShift {s : ℕ} (hs : s < 32 * width) (hx : 2 ^ (s + 1) ∣ x.value) :
    (x.orLimb (s / 32) (1 <<< UInt32.ofNat (s &&& 31))).value = x.value + 2 ^ s := by
  obtain ⟨c, hc⟩ := hx
  have hmod : s &&& 31 = s % 32 := and_two_pow_sub_one_eq_mod s 5
  have hbit : ∀ r < 32, (1 <<< UInt32.ofNat (s % 32) : UInt32).toNat.testBit r = true ↔ s % 32 = r := by
    intro r hr
    have hshift := testBit_shl (v := 1) (s := UInt32.ofNat (s % 32))
      (by rw [UInt32.toNat_ofNat']; omega) r
    rw [hshift, UInt32.toNat_ofNat', mod_eq_of_lt (show s % 32 < 2 ^ 32 by omega), UInt32.toNat_one,
      testBit_one_eq_true_iff_self_eq_zero]
    omega
  rw [hc, Nat.two_pow_add_eq_or_of_lt (Nat.pow_lt_pow_right (by decide) (Nat.lt_succ_self s)), ← hc]
  refine eq_of_testBit_eq fun n => Bool.eq_iff_iff.mpr ?_
  rw [testBit_value, testBit_orLimb (by omega), hmod, hbit _ (mod_lt _ (by decide)), testBit_or,
    Bool.or_eq_true, testBit_value, testBit_two_pow, decide_eq_true_eq]
  refine or_congr_right ⟨fun h => by omega, fun h => by omega⟩

lemma value_divLoop {t : ℕ} (ht : t ≤ 32 * width) {num div x : BaseUint width} {b : ℕ} (hb : 0 < b)
    (hdiv : ∀ s, t = s + 1 → div.value = b * 2 ^ s) (hnum : num.value < b * 2 ^ t) (hx : 2 ^ t ∣ x.value) :
    (divLoop t num div x).value = x.value + num.value / b := by
  induction t generalizing num div x with
  | zero =>
    rw [pow_zero, mul_one] at hnum
    rw [divLoop, div_eq_of_lt hnum, add_zero]
  | succ s ih =>
    have hvalue := hdiv s rfl
    have hnext : ∀ s', s = s' + 1 → (div.shiftRight 1).value = b * 2 ^ s' := by
      rintro s' rfl
      rw [value_shiftRight, hvalue, UInt32.toNat_one, pow_one, pow_succ, ← mul_assoc, Nat.mul_div_cancel _ (by decide)]
    rw [divLoop]
    simp only [compareTo_nonneg]
    split_ifs with hle
    · rw [hvalue] at hle
      have hquot := value_orLimb_oneShift (by omega) hx
      have hrest : (num.sub div).value = num.value - b * 2 ^ s := by
        rw [value_sub (by rw [hvalue]; exact hle), hvalue]
      have hdouble : b * 2 ^ (s + 1) = b * 2 ^ s + b * 2 ^ s := by ring
      have hquotLe : 2 ^ s ≤ num.value / b := (le_div_iff_mul_le hb).mpr (by rw [mul_comm]; exact hle)
      have hdvd : 2 ^ s ∣ (x.orLimb (s / 32) (1 <<< UInt32.ofNat (s &&& 31))).value := by
        rw [hquot]
        exact (Nat.dvd_add_right ((Nat.pow_dvd_pow 2 (Nat.le_succ s)).trans hx)).mpr dvd_rfl
      rw [ih (by omega) hnext (by rw [hrest]; omega) hdvd, hquot, hrest, sub_mul_div, add_assoc,
        Nat.add_sub_cancel' hquotLe]
    · rw [hvalue] at hle
      exact ih (by omega) hnext (not_le.mp hle) ((pow_dvd_pow 2 (le_succ s)).trans hx)

theorem value_div (hwidth : 32 * width < 2 ^ 32) (hb : b.value ≠ 0) :
    ∃ q, a.div b = .ok q ∧ q.value = a.value / b.value := by
  have hpos : 0 < b.value := pos_of_ne_zero hb
  rw [div]
  simp only [bits_eq]
  rw [if_neg (fun h => hb (size_eq_zero.mp h))]
  split_ifs with hsmall
  · refine ⟨_, rfl, ?_⟩
    have hlt : a.value < b.value := by
      by_contra hge
      exact absurd (size_le_size (not_lt.mp hge)) (not_le.mpr hsmall)
    rw [value_zero, div_eq_of_lt hlt]
  · have hsizeA : Nat.size a.value ≤ 32 * width := size_le.mpr (value_lt a)
    have hsizeB : 0 < Nat.size b.value := size_pos.mpr hpos
    have hb' : b.value < 2 ^ Nat.size b.value := lt_size_self _
    have hlow : 2 ^ (Nat.size b.value - 1) ≤ b.value := lt_size.mp (by omega)
    have ha : a.value < 2 ^ Nat.size a.value := lt_size_self _
    have hshift : (UInt32.ofNat (Nat.size a.value - Nat.size b.value)).toNat =
        Nat.size a.value - Nat.size b.value := by
      rw [UInt32.toNat_ofNat', mod_eq_of_lt (by omega)]
    -- Shifted to the length of the number, the divisor still fits.
    have haligned : (b.shiftLeft (UInt32.ofNat (Nat.size a.value - Nat.size b.value))).value =
        b.value * 2 ^ (Nat.size a.value - Nat.size b.value) := by
      rw [value_shiftLeft, hshift, mod_eq_of_lt]
      calc b.value * 2 ^ (Nat.size a.value - Nat.size b.value)
          < 2 ^ Nat.size b.value * 2 ^ (Nat.size a.value - Nat.size b.value) :=
            Nat.mul_lt_mul_of_pos_right hb' (Nat.two_pow_pos _)
        _ = 2 ^ Nat.size a.value := by rw [← pow_add, Nat.add_sub_cancel' (not_lt.mp hsmall)]
        _ ≤ 2 ^ (32 * width) := Nat.pow_le_pow_right (by decide) hsizeA
    have hnum : a.value < b.value * 2 ^ (Nat.size a.value - Nat.size b.value + 1) := by
      refine ha.trans_le ?_
      calc 2 ^ Nat.size a.value
          = 2 ^ (Nat.size b.value - 1) * 2 ^ (Nat.size a.value - Nat.size b.value + 1) := by
            rw [← pow_add]
            congr 1
            omega
        _ ≤ b.value * 2 ^ (Nat.size a.value - Nat.size b.value + 1) := mul_le_mul_right _ hlow
    refine ⟨_, rfl, ?_⟩
    rw [value_divLoop (by omega) hpos (fun s hs => by rw [haligned, Nat.succ.inj hs]) hnum
      (by rw [value_zero]; exact dvd_zero _), value_zero, zero_add]

end Division

section Words

lemma limbValue_eq_zero (l : List UInt32) : limbValue l = 0 ↔ ∀ a ∈ l, a = 0 := by
  induction l with
  | nil => simp [limbValue]
  | cons a l ih =>
    rw [limbValue, List.forall_mem_cons, ← ih, ← UInt32.toNat_inj, UInt32.toNat_zero]
    omega

variable (hwidth : 2 ≤ width)
include hwidth

lemma value_low (x : BaseUint width) :
    x.value = (x.limb 0).toNat + 2 ^ 32 * (x.limb 1).toNat + 2 ^ 64 * limbValue (x.pn.drop 2) := by
  have hsplit := value_split hwidth x
  have h₀ := limbValue_take_succ (l := x.pn) (n := 0) (by rw [x.length_pn]; omega)
  have h₁ := limbValue_take_succ (l := x.pn) (n := 1) (by rw [x.length_pn]; omega)
  rw [hsplit, h₁, h₀]
  simp [limbValue, limb]

theorem value_ofUInt64 (b : UInt64) : (ofUInt64 width b).value = b.toNat := by
  have h₀ := value_setLimb (x := zero width) (show 0 < width by omega) b.toUInt32
  have h₁ := value_setLimb (x := (zero width).setLimb 0 b.toUInt32) (show 1 < width by omega) (b >>> 32).toUInt32
  have hlow : b.toUInt32.toNat = b.toNat % 2 ^ 32 := UInt64.toNat_toUInt32 b
  have hhigh : (b >>> 32).toUInt32.toNat = b.toNat / 2 ^ 32 := by
    have hlt := b.toNat_lt
    rw [UInt64.toNat_toUInt32, toNat_high, mod_eq_of_lt (by omega)]
  rw [limb_setLimb (show 0 < width by omega), if_neg (by decide), limb_zero, UInt32.toNat_zero, hhigh] at h₁
  rw [limb_zero, UInt32.toNat_zero, value_zero, hlow] at h₀
  rw [ofUInt64]
  omega

theorem toNat_getLow64 (x : BaseUint width) : x.getLow64.toNat = x.value % 2 ^ 64 := by
  have h₀ := (x.limb 0).toNat_lt
  have h₁ := (x.limb 1).toNat_lt
  have hshift : ((x.limb 1).toUInt64 <<< 32).toNat = 2 ^ 32 * (x.limb 1).toNat := by
    rw [UInt64.toNat_shiftLeft, UInt32.toNat_toUInt64, show (32 : UInt64).toNat % 64 = 32 from rfl, shiftLeft_eq,
      mod_eq_of_lt (by omega), mul_comm]
  rw [getLow64, UInt64.toNat_or, hshift, UInt32.toNat_toUInt64, lor_comm, ← two_pow_add_eq_or_of_lt h₀,
    value_low hwidth]
  omega

theorem equalTo_iff (x : BaseUint width) (b : UInt64) : x.equalTo b = true ↔ x.value = b.toNat := by
  have hb := b.toNat_lt
  have h₀ := (x.limb 0).toNat_lt
  have h₁ := (x.limb 1).toNat_lt
  have hhigh : (List.range' 2 (width - 2)).all (fun i => x.limb i == 0) = true ↔ limbValue (x.pn.drop 2) = 0 := by
    rw [limbValue_eq_zero, List.all_eq_true]
    constructor
    · intro hall v hv
      obtain ⟨k, hk, rfl⟩ := List.mem_iff_getElem.mp hv
      rw [List.length_drop, x.length_pn] at hk
      have hzero := eq_of_beq (hall (2 + k) (List.mem_range'_1.mpr ⟨by omega, by omega⟩))
      rw [List.getElem_drop, ← List.getD_eq_getElem _ 0]
      exact hzero
    · intro hall i hi
      obtain ⟨hge, hlt⟩ := List.mem_range'_1.mp hi
      have hpn : i < x.pn.length := by
        rw [x.length_pn]
        omega
      refine beq_iff_eq.mpr ?_
      rw [limb, List.getD_eq_getElem _ _ hpn]
      refine hall _ (List.mem_iff_getElem.mpr ⟨i - 2, by rw [List.length_drop]; omega, ?_⟩)
      rw [List.getElem_drop]
      congr 1
      omega
  have hword₁ : ((x.limb 1).toUInt64 == b >>> 32) = true ↔ (x.limb 1).toNat = b.toNat / 2 ^ 32 := by
    rw [beq_iff_eq, ← UInt64.toNat_inj, UInt32.toNat_toUInt64, toNat_high]
  have hword₀ : ((x.limb 0).toUInt64 == b &&& 0xffffffff) = true ↔ (x.limb 0).toNat = b.toNat % 2 ^ 32 := by
    have hmask : b.toNat &&& 4294967295 = b.toNat % 2 ^ 32 := and_two_pow_sub_one_eq_mod b.toNat 32
    rw [beq_iff_eq, ← UInt64.toNat_inj, UInt32.toNat_toUInt64, UInt64.toNat_and,
      show (0xffffffff : UInt64).toNat = 4294967295 from rfl, hmask]
  rw [equalTo, Bool.and_eq_true, Bool.and_eq_true, hhigh, hword₁, hword₀, value_low hwidth]
  omega

end Words

end BaseUint

end MutableBitcoin
