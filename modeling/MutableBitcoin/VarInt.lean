import MutableBitcoin.RoundTrip

/-!
# Numbers of variable length

`WriteVarInt` and `ReadVarInt` of `serialize.h`: groups of seven bits, the most significant first,
where every group but the last stands for one more than it holds.
-/

namespace MutableBitcoin
open Lib List Nat UInt8

/-- The loop of `WriteVarInt`. The bytes of `tmp` stand in the order in which they are written, and
`room` of the array is left. -/
def writeVarIntLoop : ℕ → ℕ → ℕ → Bytes → Bytes
  | 0, _, _, tmp => tmp
  | room + 1, n, len, tmp =>
    let tmp := (UInt8.ofNat (n % 128) ||| if len = 0 then 0 else 0x80) :: tmp
    if n ≤ 0x7f then tmp else writeVarIntLoop room (n / 128 - 1) (len + 1) tmp

/-- `WriteVarInt` on a number of a type of `width` bytes that is not negative. -/
def writeVarInt (width n : ℕ) : Bytes :=
  writeVarIntLoop ((8 * width + 6) / 7) n 0 []

/-- The loop of `ReadVarInt`. -/
def readVarIntLoop (max : ℕ) : ℕ → Read ℕ
  | _, [] => .error .endOfData
  | n, chData :: is =>
    if max / 128 < n then .error .varIntTooLarge
    else
      let n := n * 128 + chData.toNat % 128
      if chData &&& 0x80 ≠ 0 then
        if n = max then .error .varIntTooLarge else readVarIntLoop max (n + 1) is
      else .ok (n, is)

/-- `ReadVarInt` of a type whose greatest value is `max`. -/
def readVarInt (max : ℕ) : Read ℕ := readVarIntLoop max 0

section Groups

lemma writeVarIntLoop_append (room n len : ℕ) (tmp : Bytes) :
    writeVarIntLoop room n len tmp = writeVarIntLoop room n len [] ++ tmp := by
  induction room generalizing n len tmp with
  | zero => rfl
  | succ room ih =>
    simp only [writeVarIntLoop]
    by_cases hlast : n ≤ 0x7f
    · rw [if_pos hlast, if_pos hlast, singleton_append]
    · rw [if_neg hlast, if_neg hlast, ih, ih _ _ [_], append_assoc, singleton_append]

lemma readVarIntLoop_group {max n low : ℕ} {chData : UInt8} (is : Bytes)
    (hch : chData.toNat = low + 128) (hlow : low < 128) (hn : n * 128 + low < max) :
    readVarIntLoop max n (chData :: is) = readVarIntLoop max (n * 128 + low + 1) is := by
  have hmod : chData.toNat % 128 = low := by omega
  have hsign : chData &&& 0x80 ≠ 0 := (and_sign_ne_zero_iff chData).mpr (by omega)
  rw [readVarIntLoop, if_neg (by omega)]
  simp only [hmod, if_pos hsign, if_neg (Nat.ne_of_lt hn)]

lemma toNat_group (n : ℕ) : (UInt8.ofNat (n % 128) ||| 0x80).toNat = n % 128 + 128 := by
  have hlow : (UInt8.ofNat (n % 128)).toNat = n % 128 := by
    rw [toNat_ofNat', mod_eq_of_lt (by omega)]
  rw [toNat_or_sign (by omega), hlow]

lemma readVarIntLoop_groups {max room n len : ℕ} (rest : Bytes) (hlen : len ≠ 0)
    (hroom : n < 128 ^ (room + 1)) (hn : (n + 1) * 128 ≤ max) :
    readVarIntLoop max 0 (writeVarIntLoop (room + 1) n len [] ++ rest) =
      readVarIntLoop max (n + 1) rest := by
  induction room generalizing n len rest with
  | zero =>
    have hlast : n ≤ 0x7f := by omega
    rw [writeVarIntLoop]
    simp only [if_neg hlen, if_pos hlast]
    rw [singleton_append, readVarIntLoop_group rest (toNat_group n) (by omega) (by omega)]
    congr 1
    omega
  | succ room ih =>
    rw [writeVarIntLoop]
    simp only [if_neg hlen]
    split_ifs with hlast
    · rw [singleton_append, readVarIntLoop_group rest (toNat_group n) (by omega) (by omega)]
      congr 1
      omega
    · have hdiv : n / 128 < 128 ^ (room + 1) :=
        Nat.div_lt_of_lt_mul (by rwa [pow_succ, mul_comm] at hroom)
      rw [writeVarIntLoop_append, append_assoc, singleton_append,
        ih _ (succ_ne_zero len) (by omega) (by omega),
        readVarIntLoop_group rest (toNat_group n) (by omega) (by omega)]
      congr 1
      omega

end Groups

lemma reads_varInt {width n max : ℕ} (hwidth : width ≠ 0) (hn : n < 256 ^ width) (hmax : n ≤ max) :
    Reads (readVarInt max) (writeVarInt width n) n := by
  intro rest
  have hpow : 256 ^ width ≤ 128 ^ ((8 * width + 6) / 7) := by
    rw [show 256 = 2 ^ 8 by norm_num, show 128 = 2 ^ 7 by norm_num, ← pow_mul, ← pow_mul]
    exact Nat.pow_le_pow_right (by norm_num) (by omega)
  obtain ⟨room, hroom⟩ : ∃ room, (8 * width + 6) / 7 = room + 1 + 1 :=
    ⟨(8 * width + 6) / 7 - 2, by omega⟩
  have hlt := hn.trans_le hpow
  rw [hroom] at hlt
  have hlow : (UInt8.ofNat (n % 128)).toNat = n % 128 := by
    rw [toNat_ofNat', mod_eq_of_lt (by omega)]
  have hsign : ¬UInt8.ofNat (n % 128) &&& 0x80 ≠ 0 := by
    rw [and_sign_ne_zero_iff]
    omega
  have hlast : ∀ m, m * 128 + n % 128 = n →
      readVarIntLoop max m (UInt8.ofNat (n % 128) :: rest) = .ok (n, rest) := by
    intro m hm
    rw [readVarIntLoop, if_neg (by omega)]
    simp only [hlow, mod_mod, hm, if_neg hsign]
  rw [readVarInt, writeVarInt, hroom, writeVarIntLoop]
  simp only [if_pos, UInt8.or_zero]
  split_ifs with h
  · exact hlast 0 (by omega)
  · have hdiv : n / 128 < 128 ^ (room + 1) :=
      Nat.div_lt_of_lt_mul (by rwa [pow_succ, mul_comm] at hlt)
    rw [writeVarIntLoop_append, append_assoc, singleton_append,
      readVarIntLoop_groups _ (by omega) (by omega) (by omega)]
    exact hlast _ (by omega)

/-! ## Numbers of variable length are one-to-one -/

/-- `GetSizeOfVarInt`. -/
def getSizeOfVarInt (n : ℕ) : ℕ :=
  if n ≤ 0x7f then 1 else getSizeOfVarInt (n / 128 - 1) + 1
termination_by n
decreasing_by omega

/-- `GetSizeOfCompactSize`. -/
def getSizeOfCompactSize (nSize : ℕ) : ℕ :=
  if nSize < 253 then 1
  else if nSize ≤ 0xffff then 1 + 2
  else if nSize ≤ 0xffffffff then 1 + 4
  else 1 + 8

/-- The loop of `ReadVarInt` in the arithmetic of an unsigned type of `w` bits. -/
def readVarIntWord (w : ℕ) : BitVec w → Read (BitVec w)
  | _, [] => .error .endOfData
  | n, chData :: is =>
    if BitVec.allOnes w >>> 7 < n then .error .varIntTooLarge
    else
      let n := n <<< 7 ||| BitVec.ofNat w (chData &&& 0x7f).toNat
      if chData &&& 0x80 ≠ 0 then
        if n = BitVec.allOnes w then .error .varIntTooLarge else readVarIntWord w (n + 1) is
      else .ok (n, is)

section Groups

def group (n : ℕ) (more : Bool) : UInt8 := UInt8.ofNat (n % 128) ||| if more then 0x80 else 0

def varIntGroups (n : ℕ) (more : Bool) : Bytes :=
  if n ≤ 0x7f then [group n more] else varIntGroups (n / 128 - 1) true ++ [group n more]
termination_by n
decreasing_by omega

lemma toNat_group_true (n : ℕ) : (group n true).toNat = n % 128 + 128 := toNat_group n

lemma toNat_group_false (n : ℕ) : (group n false).toNat = n % 128 := by
  rw [group, if_neg Bool.false_ne_true, UInt8.or_zero, UInt8.toNat_ofNat', mod_eq_of_lt (by omega)]

lemma writeVarIntLoop_eq {room n : ℕ} (hn : n < 128 ^ (room + 1)) (len : ℕ) :
    writeVarIntLoop (room + 1) n len [] = varIntGroups n (len ≠ 0) := by
  have hgroup : ∀ n : ℕ, (UInt8.ofNat (n % 128) ||| if len = 0 then 0 else 0x80) = group n (len ≠ 0) := by
    intro n
    rw [group]
    by_cases hlen : len = 0
    · simp [hlen]
    · simp [hlen]
  induction room generalizing n len with
  | zero =>
    have hlast : n ≤ 0x7f := by omega
    rw [varIntGroups, if_pos hlast, writeVarIntLoop]
    simp only [if_pos hlast, hgroup]
  | succ room ih =>
    rw [varIntGroups, writeVarIntLoop]
    simp only [hgroup]
    split_ifs with hlast
    · rfl
    · have hdiv : n / 128 < 128 ^ (room + 1) :=
        Nat.div_lt_of_lt_mul (by rwa [pow_succ, mul_comm] at hn)
      have hmore : decide (len + 1 ≠ 0) = true := decide_eq_true (succ_ne_zero len)
      rw [writeVarIntLoop_append, ih (by omega) (len + 1), hmore]
      intro m
      simp [group]

lemma writeVarInt_eq {width n : ℕ} (hwidth : width ≠ 0) (hn : n < 256 ^ width) :
    writeVarInt width n = varIntGroups n false := by
  have hpow : 256 ^ width ≤ 128 ^ ((8 * width + 6) / 7) := by
    rw [show 256 = 2 ^ 8 by norm_num, show 128 = 2 ^ 7 by norm_num, ← pow_mul, ← pow_mul]
    exact Nat.pow_le_pow_right (by norm_num) (by omega)
  obtain ⟨room, hroom⟩ : ∃ room, (8 * width + 6) / 7 = room + 1 := ⟨(8 * width + 6) / 7 - 1, by omega⟩
  rw [hroom] at hpow
  rw [writeVarInt, hroom, writeVarIntLoop_eq (hn.trans_le hpow)]
  rfl

lemma length_varIntGroups (n : ℕ) (more : Bool) : (varIntGroups n more).length = getSizeOfVarInt n := by
  induction n using Nat.strong_induction_on generalizing more with
  | _ n ih =>
    rw [varIntGroups, getSizeOfVarInt]
    split_ifs with hlast
    · rfl
    · rw [length_append, ih _ (by omega), length_singleton]

/-- What the reader has consumed when it holds `n` and is not at the end. -/
def consumedGroups (n : ℕ) : Bytes := if n = 0 then [] else varIntGroups (n - 1) true

lemma eq_group (chData : UInt8) (n : ℕ) :
    chData = group (n * 128 + chData.toNat % 128) (128 ≤ chData.toNat) := by
  have hlt := chData.toNat_lt
  have hmod : (n * 128 + chData.toNat % 128) % 128 = chData.toNat % 128 := by omega
  refine UInt8.toNat_inj.mp ?_
  by_cases hmore : 128 ≤ chData.toNat
  · rw [decide_eq_true hmore, toNat_group_true, hmod]
    omega
  · rw [decide_eq_false hmore, toNat_group_false, hmod]
    omega

lemma consumedGroups_append (n low : ℕ) (hlow : low < 128) (more : Bool) :
    consumedGroups n ++ [group (n * 128 + low) more] = varIntGroups (n * 128 + low) more := by
  rw [varIntGroups, consumedGroups]
  split_ifs with hzero hlast hlast
  · rfl
  · omega
  · omega
  · have hdiv : (n * 128 + low) / 128 - 1 = n - 1 := by omega
    rw [hdiv]

lemma groups_of_readVarIntLoop {max m n : ℕ} {vch rest : Bytes} (hmax : max % 128 = 127)
    (h : readVarIntLoop max m vch = .ok (n, rest)) :
    consumedGroups m ++ vch = varIntGroups n false ++ rest ∧ n ≤ max := by
  induction vch generalizing m with
  | nil => cases h
  | cons chData is ih =>
    have hgroup := eq_group chData m
    have happend := consumedGroups_append m (chData.toNat % 128) (mod_lt _ (by decide)) (128 ≤ chData.toNat)
    rw [← hgroup] at happend
    rw [readVarIntLoop] at h
    dsimp only at h
    split_ifs at h with hlarge hmore hfull
    · have hsign : decide (128 ≤ chData.toNat) = true := decide_eq_true ((and_sign_ne_zero_iff chData).mp hmore)
      obtain ⟨hgroups, hle⟩ := ih h
      refine ⟨?_, hle⟩
      have hnext : consumedGroups (m * 128 + chData.toNat % 128 + 1) =
          varIntGroups (m * 128 + chData.toNat % 128) true := if_neg (succ_ne_zero _)
      rw [← hgroups, append_cons, happend, hsign, hnext]
    · have hsign : decide (128 ≤ chData.toNat) = false :=
        decide_eq_false fun hle => hmore ((and_sign_ne_zero_iff chData).mpr hle)
      cases h
      refine ⟨?_, by omega⟩
      rw [hsign] at happend
      rw [← happend, append_assoc, singleton_append]

end Groups

section Types
variable {width : ℕ}

lemma max_mod (hwidth : width ≠ 0) : (256 ^ width - 1) % 128 = 127 := by
  obtain ⟨k, rfl⟩ := exists_eq_succ_of_ne_zero hwidth
  have hpos : 0 < 256 ^ k := Nat.pow_pos (by decide)
  rw [pow_succ]
  omega

lemma readVarInt_eq_ok_iff (hwidth : width ≠ 0) {n : ℕ} {vch rest : Bytes} :
    readVarInt (256 ^ width - 1) vch = .ok (n, rest) ↔ n < 256 ^ width ∧ vch = writeVarInt width n ++ rest := by
  have hpos : 0 < 256 ^ width := Nat.pow_pos (by decide)
  constructor
  · intro h
    obtain ⟨hgroups, hle⟩ := groups_of_readVarIntLoop (max_mod hwidth) h
    have hlt : n < 256 ^ width := by omega
    rw [writeVarInt_eq hwidth hlt, ← hgroups]
    exact ⟨hlt, rfl⟩
  · rintro ⟨hlt, rfl⟩
    exact reads_varInt hwidth hlt (by omega) rest

lemma length_writeCompactSize (nSize : ℕ) : (writeCompactSize nSize).length = getSizeOfCompactSize nSize := by
  rw [writeCompactSize, getSizeOfCompactSize]
  split_ifs
  · rfl
  · rw [length_cons, length_leBytes]
  · rw [length_cons, length_leBytes]
  · rw [length_cons, length_leBytes]

lemma readVarIntWord_eq {w : ℕ} (hw : 7 ≤ w) (n : BitVec w) (vch : Bytes) :
    (readVarIntWord w n vch).map (fun r => (r.1.toNat, r.2)) = readVarIntLoop (2 ^ w - 1) n.toNat vch := by
  induction vch generalizing n with
  | nil => rfl
  | cons chData is ih =>
    have hpow : 2 ^ w = 2 ^ (w - 7) * 128 := by
      rw [← pow_mul_pow_sub 2 hw, mul_comm]
      rfl
    have hpos : 0 < 2 ^ (w - 7) := Nat.two_pow_pos _
    have hmax : (BitVec.allOnes w >>> 7).toNat = (2 ^ w - 1) / 128 := by
      rw [BitVec.toNat_ushiftRight, BitVec.toNat_allOnes, shiftRight_eq_div_pow]
    have hlow : (chData &&& 0x7f).toNat = chData.toNat % 128 := by
      rw [UInt8.toNat_and]
      exact and_two_pow_sub_one_eq_mod _ 7
    rw [readVarIntWord, readVarIntLoop]
    dsimp only
    by_cases hlarge : BitVec.allOnes w >>> 7 < n
    · have hlarge' : (2 ^ w - 1) / 128 < n.toNat := by rwa [← hmax]
      rw [if_pos hlarge, if_pos hlarge']
      rfl
    · have hlarge' : ¬ (2 ^ w - 1) / 128 < n.toNat := by rwa [← hmax]
      have hnext : (n <<< 7 ||| BitVec.ofNat w (chData &&& 0x7f).toNat).toNat =
          n.toNat * 128 + chData.toNat % 128 := by
        have hmod : chData.toNat % 128 < 2 ^ 7 := mod_lt _ (by decide)
        have hshift : n.toNat * 2 ^ 7 < 2 ^ w := by omega
        have hbits : chData.toNat % 128 < 2 ^ w := by omega
        rw [BitVec.toNat_or, BitVec.toNat_shiftLeft, BitVec.toNat_ofNat, hlow, shiftLeft_eq,
          mod_eq_of_lt hshift, mod_eq_of_lt hbits, mul_comm, ← two_pow_add_eq_or_of_lt hmod,
          mul_comm]
      rw [if_neg hlarge, if_neg hlarge']
      by_cases hmore : chData &&& 0x80 ≠ 0
      · rw [if_pos hmore, if_pos hmore]
        have hfull : n <<< 7 ||| BitVec.ofNat w (chData &&& 0x7f).toNat = BitVec.allOnes w ↔
            n.toNat * 128 + chData.toNat % 128 = 2 ^ w - 1 := by
          rw [← hnext, ← BitVec.toNat_inj, BitVec.toNat_allOnes]
        by_cases hn : n.toNat * 128 + chData.toNat % 128 = 2 ^ w - 1
        · rw [if_pos (hfull.mpr hn), if_pos hn]
          rfl
        · rw [if_neg (mt hfull.mp hn), if_neg hn, ih]
          congr 1
          have hone : (1 : BitVec w).toNat = 1 := BitVec.toNat_one (by omega)
          have hlt := (n <<< 7 ||| BitVec.ofNat w (chData &&& 0x7f).toNat).isLt
          rw [hnext] at hlt
          rw [BitVec.toNat_add, hnext, hone, mod_eq_of_lt (by omega)]
      · rw [if_neg hmore, if_neg hmore, ← hnext]
        rfl

end Types

/-- Both formats are one-to-one, for unsigned numbers of 4 and 8 bytes and for sizes up to `MAX_SIZE`. -/
theorem varInt_compactSize_oneToOne :
    (∀ width ∈ [4, 8],
      (∀ n vch rest, readVarInt (256 ^ width - 1) vch = .ok (n, rest) ↔
        n < 256 ^ width ∧ vch = writeVarInt width n ++ rest) ∧
      (∀ n < 256 ^ width, getSizeOfVarInt n = (writeVarInt width n).length) ∧
      ∀ vch, (readVarIntWord (8 * width) 0 vch).map (fun r => (r.1.toNat, r.2)) =
        readVarInt (256 ^ width - 1) vch) ∧
    (∀ n vch rest, readCompactSize vch = .ok (n, rest) ↔ n ≤ MAX_SIZE ∧ vch = writeCompactSize n ++ rest) ∧
    ∀ nSize, getSizeOfCompactSize nSize = (writeCompactSize nSize).length := by
  refine ⟨fun width hwidth => ?_, fun n vch rest => readCompactSize_eq_ok_iff, fun nSize =>
    (length_writeCompactSize nSize).symm⟩
  have hne : width ≠ 0 := by
    rintro rfl
    exact absurd hwidth (by decide)
  refine ⟨fun n vch rest => readVarInt_eq_ok_iff hne, fun n hn => ?_, fun vch => ?_⟩
  · rw [writeVarInt_eq hne hn, length_varIntGroups]
  · have hpow : 2 ^ (8 * width) = 256 ^ width := pow_mul 2 8 width
    have hzero : (0 : BitVec (8 * width)).toNat = 0 := BitVec.toNat_zero
    have hbits : 7 ≤ 8 * width := by omega
    have hword := readVarIntWord_eq hbits 0 vch
    rw [hpow, hzero] at hword
    exact hword

end MutableBitcoin
