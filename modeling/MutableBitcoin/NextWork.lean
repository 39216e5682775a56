import MutableBitcoin.Ancestors
import MutableBitcoin.BlockWork

/-!
# Difficulty

`GetNextWorkRequired`, `CalculateNextWorkRequired` and the range test of `CheckProofOfWork`, from `pow.cpp`.
-/

namespace MutableBitcoin
open Lib List ArithUint256 Bool

section UintToArith

def readLE32 (bytes : List UInt8) : UInt32 := UInt32.ofNat (leValue (bytes.take 4))

lemma length_wordsOf (a : Uint256) :
    ((List.range 8).map fun x => readLE32 (a.data.drop (x * 4))).length = 8 :=
  (length_map _).trans length_range

def uintToArith256 (a : Uint256) : ArithUint256 :=
  ⟨(List.range 8).map fun x => readLE32 (a.data.drop (x * 4)), length_wordsOf a⟩

lemma toNat_readLE32 (bytes : List UInt8) : (readLE32 bytes).toNat = leValue (bytes.take 4) := by
  have hlt := leValue_lt (bytes.take 4)
  have hle : 256 ^ (bytes.take 4).length ≤ 256 ^ 4 := Nat.pow_le_pow_right (by decide) (length_take_le 4 _)
  rw [readLE32, UInt32.toNat_ofNat', Nat.mod_eq_of_lt (by omega)]

lemma limbValue_words {w : ℕ} {bytes : List UInt8} (h : bytes.length = w * 4) :
    limbValue ((List.range w).map fun x => readLE32 (bytes.drop (x * 4))) = leValue bytes := by
  induction w generalizing bytes with
  | zero =>
    rw [Nat.zero_mul, length_eq_zero_iff] at h
    rw [h]
    rfl
  | succ w ih =>
    have hrest := ih (show (bytes.drop 4).length = w * 4 by rw [length_drop, h]; omega)
    have hsplit := leValue_append (bytes.take 4) (bytes.drop 4)
    rw [take_append_drop, length_take, Nat.min_eq_left (by omega)] at hsplit
    have hmap : ((List.range w).map Nat.succ).map (fun x => readLE32 (bytes.drop (x * 4))) =
        (List.range w).map fun x => readLE32 ((bytes.drop 4).drop (x * 4)) := by
      rw [map_map]
      refine map_congr_left fun x _ => ?_
      rw [Function.comp_apply, drop_drop, Nat.succ_mul, Nat.add_comm]
    rw [range_succ_eq_map, map_cons, limbValue, hmap, hrest, hsplit, toNat_readLE32, Nat.zero_mul,
      drop_zero, show (256 : ℕ) ^ 4 = 2 ^ 32 by norm_num]

theorem value_uintToArith256 (a : Uint256) : (uintToArith256 a).value = a.value := limbValue_words a.length_data

end UintToArith

/-- The fields of `Consensus::Params` that the difficulty depends on. -/
structure PowParams where
  powLimit : Uint256
  fPowAllowMinDifficultyBlocks : Bool
  fPowNoRetargeting : Bool
  nPowTargetSpacing : ℤ
  nPowTargetTimespan : ℤ
deriving DecidableEq

namespace PowParams

def difficultyAdjustmentInterval (params : PowParams) : ℤ :=
  params.nPowTargetTimespan.tdiv params.nPowTargetSpacing

/-- `CMainParams` -/
def main : PowParams where
  powLimit := BaseBlob.ofNat 32 0x00000000ffffffffffffffffffffffffffffffffffffffffffffffffffffffff
  fPowAllowMinDifficultyBlocks := false
  fPowNoRetargeting := false
  nPowTargetSpacing := 10 * 60
  nPowTargetTimespan := 14 * 24 * 60 * 60

/-- `CTestNetParams` -/
def test : PowParams := { main with fPowAllowMinDifficultyBlocks := true }

end PowParams

/-- Where a call ends the process. -/
inductive PowFailure
  | assertion
  | divisionByZero
deriving DecidableEq

/-- The range test of `CheckProofOfWork`. -/
def checkRange (nBits : UInt32) (powLimit : Uint256) : Bool :=
  let (bnTarget, fNegative, fOverflow) := ArithUint256.setCompact nBits
  !(fNegative || bnTarget.equalTo 0 || fOverflow || decide (0 < bnTarget.compareTo (uintToArith256 powLimit)))

section Retargeting

variable (params : PowParams)

def limitedTimespan (nActualTimespan : ℤ) : ℤ :=
  let nActualTimespan :=
    if nActualTimespan < params.nPowTargetTimespan.tdiv 4 then params.nPowTargetTimespan.tdiv 4 else nActualTimespan
  if nActualTimespan > params.nPowTargetTimespan * 4 then params.nPowTargetTimespan * 4 else nActualTimespan

/-- The multiplication converts the timespan to 32 bits, the division to 64. -/
def calculateNextWorkRequired (nLastBits : UInt32) (nLastTime nFirstBlockTime : ℤ) : Except PowFailure UInt32 :=
  if params.fPowNoRetargeting then .ok nLastBits
  else
    let nActualTimespan := limitedTimespan params (nLastTime - nFirstBlockTime)
    let bnPowLimit := uintToArith256 params.powLimit
    let bnNew := (ArithUint256.setCompact nLastBits).1.mulWord (UInt32.ofInt nActualTimespan)
    match bnNew.div (BaseUint.ofUInt64 8 (UInt64.ofInt params.nPowTargetTimespan)) with
    | .error _ => .error .divisionByZero
    | .ok bnNew =>
      let bnNew := if 0 < bnNew.compareTo bnPowLimit then bnPowLimit else bnNew
      match getCompact bnNew false with
      | none => .error .assertion
      | some nCompact => .ok nCompact

variable {Ptr : Type} (t : IndexedTree Ptr) (nBits : Ptr → UInt32)

/-- The last block that is not a minimum-difficulty one. -/
def lastRegularBlock (nProofOfWorkLimit : UInt32) (pindex : Ptr) : Ptr :=
  match _h : t.pprev pindex with
  | none => pindex
  | some pprev =>
    if (t.nHeight pindex : ℤ) % params.difficultyAdjustmentInterval ≠ 0 ∧ nBits pindex = nProofOfWorkLimit then
      lastRegularBlock nProofOfWorkLimit pprev
    else pindex
termination_by t.nHeight pindex
decreasing_by
  have := t.leveled.step _ _ ‹_›
  omega

/-- The bits that the block after `pindexLast` has to have, if it has this time. -/
def getNextWorkRequired (pindexLast : Option Ptr) (blockTime : UInt32) : Except PowFailure UInt32 :=
  match pindexLast with
  | none => .error .assertion
  | some pindexLast =>
    match getCompact (uintToArith256 params.powLimit) false with
    | none => .error .assertion
    | some nProofOfWorkLimit =>
      if ((t.nHeight pindexLast : ℤ) + 1) % params.difficultyAdjustmentInterval ≠ 0 then
        if params.fPowAllowMinDifficultyBlocks then
          if (blockTime.toNat : ℤ) > (t.nTime pindexLast).toNat + params.nPowTargetSpacing * 2 then
            .ok nProofOfWorkLimit
          else .ok (nBits (lastRegularBlock params t nBits nProofOfWorkLimit pindexLast))
        else .ok (nBits pindexLast)
      else
        let nHeightFirst := (t.nHeight pindexLast : ℤ) - (params.difficultyAdjustmentInterval - 1)
        if nHeightFirst < 0 then .error .assertion
        else
          match t.getAncestor pindexLast nHeightFirst with
          | none => .error .assertion
          | some pindexFirst =>
            calculateNextWorkRequired params (nBits pindexLast) (t.nTime pindexLast).toNat
              (t.nTime pindexFirst).toNat

end Retargeting

section RangeTest

variable {nBits : UInt32}

lemma checkRange_iff {powLimit : Uint256} :
    checkRange nBits powLimit = true ↔
      ArithUint256.ValidTarget nBits ∧ (ArithUint256.setCompact nBits).1.value ≤ powLimit.value := by
  have hzero : (ArithUint256.setCompact nBits).1.equalTo 0 = true ↔ (ArithUint256.setCompact nBits).1.value = 0 :=
    BaseUint.equalTo_iff (by decide) _ 0
  rw [checkRange, ArithUint256.ValidTarget, not_eq_true', or_eq_false_iff, or_eq_false_iff,
    or_eq_false_iff, decide_eq_false_iff_not, BaseUint.compareTo_pos, not_lt, value_uintToArith256, Ne, ← hzero,
    not_eq_true, Prod.ext_iff]
  tauto

end RangeTest

section Exactness

variable {params : PowParams}

/-- Parameters for which the products stay below `2 ^ 256`. -/
structure PowParams.Bounded (params : PowParams) : Prop where
  timespan_pos : 4 ≤ params.nPowTargetTimespan
  timespan_lt : params.nPowTargetTimespan * 4 < 2 ^ 32
  limit_lt : params.powLimit.value < 2 ^ 224
  limit_pos : 0 < params.powLimit.value
  retargeting : params.fPowNoRetargeting = false

lemma PowParams.bounded_main : PowParams.main.Bounded where
  timespan_pos := by decide
  timespan_lt := by decide
  limit_lt := by decide +kernel
  limit_pos := by decide +kernel
  retargeting := rfl

lemma PowParams.bounded_test : PowParams.test.Bounded where
  timespan_pos := by decide
  timespan_lt := by decide
  limit_lt := by decide +kernel
  limit_pos := by decide +kernel
  retargeting := rfl

lemma limitedTimespan_bounds (h : params.Bounded) (n : ℤ) :
    params.nPowTargetTimespan / 4 ≤ limitedTimespan params n ∧
      limitedTimespan params n ≤ params.nPowTargetTimespan * 4 := by
  have hpos := h.timespan_pos
  rw [limitedTimespan, Int.tdiv_eq_ediv_of_nonneg (by omega)]
  split_ifs <;> omega

lemma limitedTimespan_eq (h : params.Bounded) (n : ℤ) :
    limitedTimespan params n = max (params.nPowTargetTimespan / 4) (min n (params.nPowTargetTimespan * 4)) := by
  have hpos := h.timespan_pos
  rw [limitedTimespan, Int.tdiv_eq_ediv_of_nonneg (by omega)]
  split_ifs <;> omega

lemma toNat_ofInt_of_lt {x : ℤ} (hpos : 0 ≤ x) (hlt : x < 2 ^ 32) : (UInt32.ofInt x).toNat = x.toNat := by
  rw [UInt32.ofInt, UInt32.toNat_ofNat', Int.emod_eq_of_lt hpos hlt, Nat.mod_eq_of_lt (by omega)]

lemma toNat_ofInt64_of_lt {x : ℤ} (hpos : 0 ≤ x) (hlt : x < 2 ^ 64) : (UInt64.ofInt x).toNat = x.toNat := by
  rw [UInt64.ofInt, UInt64.toNat_ofNat', Int.emod_eq_of_lt hpos hlt, Nat.mod_eq_of_lt (by omega)]

def retargeted (params : PowParams) (T : ℕ) (timespan : ℤ) : ℕ :=
  min params.powLimit.value (T * timespan.toNat / params.nPowTargetTimespan.toNat)

lemma mul_timespan_lt (h : params.Bounded) {T : ℕ} (hT : T ≤ params.powLimit.value) (n : ℤ) :
    T * (limitedTimespan params n).toNat < 2 ^ 256 := by
  have hlimit := h.limit_lt
  have hbounds := limitedTimespan_bounds h n
  have hspan := h.timespan_lt
  have hpos := h.timespan_pos
  calc T * (limitedTimespan params n).toNat ≤ 2 ^ 224 * (2 ^ 32 - 1) := Nat.mul_le_mul (by omega) (by omega)
    _ < 2 ^ 256 := by norm_num

lemma calculateNextWorkRequired_eq (h : params.Bounded) {nBits : UInt32}
    (hT : (ArithUint256.setCompact nBits).1.value ≤ params.powLimit.value) (nLastTime nFirstTime : ℤ) :
    ∃ bn c, calculateNextWorkRequired params nBits nLastTime nFirstTime = .ok c ∧
      getCompact bn false = some c ∧
      bn.value = retargeted params (ArithUint256.setCompact nBits).1.value
        (limitedTimespan params (nLastTime - nFirstTime)) := by
  have hpos := h.timespan_pos
  have hspan := h.timespan_lt
  have hbounds := limitedTimespan_bounds h (nLastTime - nFirstTime)
  have hmul : ((ArithUint256.setCompact nBits).1.mulWord
      (UInt32.ofInt (limitedTimespan params (nLastTime - nFirstTime)))).value =
      (ArithUint256.setCompact nBits).1.value * (limitedTimespan params (nLastTime - nFirstTime)).toNat := by
    rw [BaseUint.value_mulWord, toNat_ofInt_of_lt (by omega) (by omega)]
    exact Nat.mod_eq_of_lt (mul_timespan_lt h hT _)
  have hdivisor : (BaseUint.ofUInt64 8 (UInt64.ofInt params.nPowTargetTimespan)).value =
      params.nPowTargetTimespan.toNat := by
    rw [BaseUint.value_ofUInt64 (by decide), toNat_ofInt64_of_lt (by omega) (by omega)]
  obtain ⟨q, hdiv, hq⟩ := BaseUint.value_div
    (a := (ArithUint256.setCompact nBits).1.mulWord
      (UInt32.ofInt (limitedTimespan params (nLastTime - nFirstTime))))
    (b := BaseUint.ofUInt64 8 (UInt64.ofInt params.nPowTargetTimespan)) (by decide) (by rw [hdivisor]; omega)
  rw [hmul, hdivisor] at hq
  obtain ⟨c, hc, -⟩ := getCompact_rounds
    (if 0 < q.compareTo (uintToArith256 params.powLimit) then uintToArith256 params.powLimit else q)
  refine ⟨_, c, ?_, hc, ?_⟩
  · rw [calculateNextWorkRequired, h.retargeting]
    dsimp only
    rw [if_neg Bool.false_ne_true, hdiv]
    dsimp only
    rw [hc]
  · rw [retargeted, ← hq]
    simp only [BaseUint.compareTo_pos, value_uintToArith256]
    split_ifs with hless
    · rw [value_uintToArith256, min_eq_left hless.le]
    · rw [min_eq_right (not_lt.mp hless)]

lemma one_mem_representable : 1 ∈ ArithUint256.Representable :=
  ⟨0x01010000, by decide +kernel, by decide +kernel⟩

lemma retargeted_le (h : params.Bounded) {T : ℕ} (n : ℤ) :
    retargeted params T (limitedTimespan params n) ≤ min params.powLimit.value (4 * T) := by
  have hpos := h.timespan_pos
  have hbounds := limitedTimespan_bounds h n
  refine min_le_min_left _ (Nat.div_le_of_le_mul ?_)
  calc T * (limitedTimespan params n).toNat ≤ T * (params.nPowTargetTimespan.toNat * 4) :=
        Nat.mul_le_mul_left _ (by omega)
    _ = params.nPowTargetTimespan.toNat * (4 * T) := by ring

lemma retargeted_pos (h : params.Bounded) {T : ℕ} (hT : 4 ≤ T) (hdvd : 4 ∣ params.nPowTargetTimespan) (n : ℤ) :
    1 ≤ retargeted params T (limitedTimespan params n) := by
  have hpos := h.timespan_pos
  have hbounds := limitedTimespan_bounds h n
  refine le_min h.limit_pos ((Nat.one_le_div_iff (by omega)).mpr ?_)
  calc params.nPowTargetTimespan.toNat ≤ 4 * (limitedTimespan params n).toNat := by omega
    _ ≤ T * (limitedTimespan params n).toNat := Nat.mul_le_mul_right _ hT

lemma checkRange_retargeted {bn : ArithUint256} {c : UInt32} {powLimit : Uint256}
    (hc : getCompact bn false = some c) (hle : bn.value ≤ powLimit.value) :
    (ArithUint256.setCompact c).1.value ≤ bn.value ∧ (1 ≤ bn.value → checkRange c powLimit = true) := by
  obtain ⟨c', hc', hflags, hrounds⟩ := getCompact_rounds bn
  obtain rfl : c' = c := Option.some.inj (hc'.symm.trans hc)
  refine ⟨hrounds.1.2, fun hone => checkRange_iff.mpr ⟨⟨hflags, ?_⟩, hrounds.1.2.trans hle⟩⟩
  have hpos : 1 ≤ (ArithUint256.setCompact c').1.value := hrounds.2 ⟨one_mem_representable, hone⟩
  omega

lemma calculateNextWorkRequired_ok (h : params.Bounded) (nBits : UInt32) (nLastTime nFirstTime : ℤ) :
    ∃ c, calculateNextWorkRequired params nBits nLastTime nFirstTime = .ok c := by
  have hpos := h.timespan_pos
  have hspan := h.timespan_lt
  have hdivisor : (BaseUint.ofUInt64 8 (UInt64.ofInt params.nPowTargetTimespan)).value =
      params.nPowTargetTimespan.toNat := by
    rw [BaseUint.value_ofUInt64 (by decide), toNat_ofInt64_of_lt (by omega) (by omega)]
  obtain ⟨q, hdiv, -⟩ := BaseUint.value_div
    (a := (ArithUint256.setCompact nBits).1.mulWord
      (UInt32.ofInt (limitedTimespan params (nLastTime - nFirstTime))))
    (b := BaseUint.ofUInt64 8 (UInt64.ofInt params.nPowTargetTimespan)) (by decide) (by rw [hdivisor]; omega)
  obtain ⟨c, hc, -⟩ := getCompact_rounds
    (if 0 < q.compareTo (uintToArith256 params.powLimit) then uintToArith256 params.powLimit else q)
  rw [calculateNextWorkRequired, h.retargeting]
  dsimp only
  rw [if_neg Bool.false_ne_true, hdiv]
  dsimp only
  rw [hc]
  exact ⟨c, rfl⟩

lemma getNextWorkRequired_ok (h : params.Bounded) (hinterval : 0 < params.difficultyAdjustmentInterval) {Ptr : Type}
    (t : IndexedTree Ptr) (nBits : Ptr → UInt32) (pindexLast : Ptr) (blockTime : UInt32) :
    ∃ c, getNextWorkRequired params t nBits (some pindexLast) blockTime = .ok c := by
  obtain ⟨nProofOfWorkLimit, hlimit, -⟩ := getCompact_rounds (uintToArith256 params.powLimit)
  rw [getNextWorkRequired]
  dsimp only
  rw [hlimit]
  dsimp only
  split_ifs with hboundary hmin hlate hfirst
  · exact ⟨_, rfl⟩
  · exact ⟨_, rfl⟩
  · exact ⟨_, rfl⟩
  · have hle := Int.le_of_dvd (by omega) (Int.dvd_of_emod_eq_zero (not_not.mp hboundary))
    omega
  · obtain ⟨a, ha⟩ := t.exists_getAncestor (p := pindexLast) (not_lt.mp hfirst) (by omega)
    rw [ha]
    exact calculateNextWorkRequired_ok h _ _ _

/-- Retargeting computes the limited multiple of the last target without wrapping around, the result is in range,
and the bits of the next block are defined on every chain. -/
theorem calculateNextWorkRequired_exact (params : PowParams)
    (hparams : params = PowParams.main ∨ params = PowParams.test) :
    (∀ nBits, checkRange nBits params.powLimit = true → ∀ nLastTime nFirstTime : UInt32, ∃ T t : ℕ,
      T = (ArithUint256.setCompact nBits).1.value ∧
      (t : ℤ) = max (params.nPowTargetTimespan / 4)
        (min ((nLastTime.toNat : ℤ) - nFirstTime.toNat) (4 * params.nPowTargetTimespan)) ∧
      T * t < 2 ^ 256 ∧ t < 2 ^ 32 ∧
      ∃ bn c, calculateNextWorkRequired params nBits nLastTime.toNat nFirstTime.toNat = .ok c ∧
        getCompact bn false = some c ∧
        bn.value = min params.powLimit.value (T * t / params.nPowTargetTimespan.toNat) ∧
        (ArithUint256.setCompact c).1.value ≤ min params.powLimit.value (4 * T) ∧
        (4 ≤ T → checkRange c params.powLimit = true)) ∧
    ∀ (Ptr : Type) (t : IndexedTree Ptr) (nBits : Ptr → UInt32) (pindexLast : Ptr) (blockTime : UInt32),
      ∃ c, getNextWorkRequired params t nBits (some pindexLast) blockTime = .ok c := by
  have hbounded : params.Bounded := by
    obtain rfl | rfl := hparams
    · exact PowParams.bounded_main
    · exact PowParams.bounded_test
  have hdvd : 4 ∣ params.nPowTargetTimespan := by
    obtain rfl | rfl := hparams <;> decide
  have hinterval : 0 < params.difficultyAdjustmentInterval := by
    obtain rfl | rfl := hparams <;> decide
  refine ⟨?_, fun Ptr t nBits pindexLast blockTime =>
    getNextWorkRequired_ok hbounded hinterval t nBits pindexLast blockTime⟩
  intro nBits hrange nLastTime nFirstTime
  have hT := (checkRange_iff.mp hrange).2
  have hpos := hbounded.timespan_pos
  have hspan := hbounded.timespan_lt
  have hbounds := limitedTimespan_bounds hbounded ((nLastTime.toNat : ℤ) - nFirstTime.toNat)
  obtain ⟨bn, c, hrun, hc, hvalue⟩ := calculateNextWorkRequired_eq hbounded hT nLastTime.toNat nFirstTime.toNat
  have hle := retargeted_le hbounded (T := (ArithUint256.setCompact nBits).1.value)
    ((nLastTime.toNat : ℤ) - nFirstTime.toNat)
  rw [← hvalue] at hle
  obtain ⟨hnew, hnewRange⟩ := checkRange_retargeted hc (hle.trans (min_le_left _ _))
  refine ⟨_, (limitedTimespan params ((nLastTime.toNat : ℤ) - nFirstTime.toNat)).toNat, rfl, ?_,
    mul_timespan_lt hbounded hT _, by omega, bn, c, hrun, hc, hvalue, hnew.trans hle, ?_⟩
  · rw [Int.toNat_of_nonneg (by omega), limitedTimespan_eq hbounded, mul_comm 4]
  · intro hfour
    exact hnewRange (hvalue ▸ retargeted_pos hbounded hfour hdvd _)

theorem calculateNextWorkRequired_exact_main :
    (∀ nBits, checkRange nBits PowParams.main.powLimit = true → ∀ nLastTime nFirstTime : UInt32, ∃ T t : ℕ,
      T = (ArithUint256.setCompact nBits).1.value ∧
      (t : ℤ) = max (PowParams.main.nPowTargetTimespan / 4)
        (min ((nLastTime.toNat : ℤ) - nFirstTime.toNat) (4 * PowParams.main.nPowTargetTimespan)) ∧
      T * t < 2 ^ 256 ∧ t < 2 ^ 32 ∧
      ∃ bn c, calculateNextWorkRequired PowParams.main nBits nLastTime.toNat nFirstTime.toNat = .ok c ∧
        getCompact bn false = some c ∧
        bn.value = min PowParams.main.powLimit.value (T * t / PowParams.main.nPowTargetTimespan.toNat) ∧
        (ArithUint256.setCompact c).1.value ≤ min PowParams.main.powLimit.value (4 * T) ∧
        (4 ≤ T → checkRange c PowParams.main.powLimit = true)) ∧
    ∀ (Ptr : Type) (t : IndexedTree Ptr) (nBits : Ptr → UInt32) (pindexLast : Ptr) (blockTime : UInt32),
      ∃ c, getNextWorkRequired PowParams.main t nBits (some pindexLast) blockTime = .ok c :=
  calculateNextWorkRequired_exact PowParams.main (Or.inl rfl)

end Exactness

end MutableBitcoin
