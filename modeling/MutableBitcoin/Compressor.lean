import MutableBitcoin.SignatureChecker
import MutableBitcoin.VarInt
import MutableBitcoin.ConnectBlock

/-!
# Compressed outputs

`CScriptCompressor` and `CTxOutCompressor` of `compressor.h`. Six kinds of scripts are written as a tag and the
bytes of a hash or a key; any other script is written behind its size, to which the number of the kinds is added.
-/

namespace MutableBitcoin
open Lib Opcode List Bool Nat

/-- The parts of the library for elliptic curves that a compressed key needs:
`secp256k1_ec_pubkey_parse`, and the coordinates that `secp256k1_ec_pubkey_serialize` writes behind
the header of an uncompressed key. -/
structure Secp256k1 where
  Point : Type
  ecPubkeyParse : Bytes → Option Point
  ecPubkeySerialize : Point → BaseBlob 64

namespace CPubKey

variable (secp : Secp256k1)

def isFullyValid (vch : Bytes) : Bool :=
  pubKeyIsValid vch && (secp.ecPubkeyParse vch).isSome

/-- `Decompress`: the uncompressed key. -/
def decompress (vch : Bytes) : Option Bytes :=
  if pubKeyIsValid vch then
    (secp.ecPubkeyParse vch).map fun pubkey => 0x04 :: (secp.ecPubkeySerialize pubkey).data
  else none

end CPubKey

namespace CScriptCompressor

variable (secp : Secp256k1)

def nSpecialScripts : ℕ := 6

def isToKeyID (script : CScript) : Option Bytes :=
  if script.length == 25 && script[0]? == some OP_DUP && script[1]? == some OP_HASH160 &&
      script[2]? == some 20 && script[23]? == some OP_EQUALVERIFY && script[24]? == some OP_CHECKSIG then
    some ((script.drop 3).take 20)
  else none

def isToScriptID (script : CScript) : Option Bytes :=
  if script.length == 23 && script[0]? == some OP_HASH160 && script[1]? == some 20 &&
      script[22]? == some OP_EQUAL then
    some ((script.drop 2).take 20)
  else none

/-- `CScriptCompressor::IsToPubKey`. -/
def isToPubKey (script : CScript) : Option Bytes :=
  if script.length == 35 && script[0]? == some 33 && script[34]? == some OP_CHECKSIG &&
      (script[1]? == some 0x02 || script[1]? == some 0x03) then
    some ((script.drop 1).take 33)
  else if script.length == 67 && script[0]? == some 65 && script[66]? == some OP_CHECKSIG &&
      script[1]? == some 0x04 then
    let pubkey := (script.drop 1).take 65
    -- if not fully valid, a case that would not be compressible
    if CPubKey.isFullyValid secp pubkey then some pubkey else none
  else none

/-- The bytes of `out` for a public key: the header says which of the two points it is. -/
def compressPubKey (pubkey : Bytes) : Option Bytes :=
  let chHeader := pubkey.getD 0 0
  let coordinate := (pubkey.drop 1).take 32
  if chHeader = 0x02 ∨ chHeader = 0x03 then some (chHeader :: coordinate)
  else if chHeader = 0x04 then some ((0x04 ||| (pubkey.getD 64 0 &&& 0x01)) :: coordinate)
  else none

/-- `CScriptCompressor::Compress`. -/
def compress (script : CScript) : Option Bytes :=
  match isToKeyID script with
  | some keyID => some (0x00 :: keyID)
  | none =>
    match isToScriptID script with
    | some scriptID => some (0x01 :: scriptID)
    | none => (isToPubKey secp script).bind compressPubKey

def getSpecialSize (nSize : ℕ) : ℕ :=
  if nSize = 0 ∨ nSize = 1 then 20
  else if nSize = 2 ∨ nSize = 3 ∨ nSize = 4 ∨ nSize = 5 then 32
  else 0

/-- `Decompress`: the script, or nothing where the key is not valid and the script stays. -/
def decompress (nSize : ℕ) (vch : Bytes) : Option CScript :=
  match nSize with
  | 0 => some ([OP_DUP, OP_HASH160, 20] ++ vch ++ [OP_EQUALVERIFY, OP_CHECKSIG])
  | 1 => some ([OP_HASH160, 20] ++ vch ++ [OP_EQUAL])
  | 2 | 3 => some ([33, UInt8.ofNat nSize] ++ vch ++ [OP_CHECKSIG])
  | 4 | 5 => (CPubKey.decompress secp (UInt8.ofNat (nSize - 2) :: vch)).map fun pubkey =>
      [65] ++ pubkey ++ [OP_CHECKSIG]
  | _ => none

/-- `CScriptCompressor::Serialize`. -/
def serialize (script : CScript) : Bytes :=
  match compress secp script with
  | some compr => compr
  | none => writeVarInt 4 ((script.length + nSpecialScripts) % 2 ^ 32) ++ script

/-- `CDataStream::ignore`. -/
def ignoreBytes (nSize : ℕ) : Read Unit := fun vch =>
  if 2 ^ 31 ≤ nSize then .error .ignoreNegative
  else if vch.length < nSize then .error .ignoreEnd
  else .ok ((), vch.drop nSize)

/-- `Unserialize` into a script. -/
def unserialize (script : CScript) : Read CScript := do
  let nSize ← readVarInt (2 ^ 32 - 1)
  if nSize < nSpecialScripts then
    let vch ← readBytes (getSpecialSize nSize)
    return (decompress secp nSize vch).getD script
  else if MAX_SCRIPT_SIZE < nSize - nSpecialScripts then
    -- overly long script, replaced with a short invalid one
    ignoreBytes (nSize - nSpecialScripts)
    return script.pushOpcode OP_RETURN
  else readBytes (nSize - nSpecialScripts)

end CScriptCompressor

namespace CTxOutCompressor

variable (secp : Secp256k1)

/-- The loop that divides the amount by the powers of ten in it, of which `left` more are taken. -/
def stripZeros : ℕ → ℕ → ℕ → ℕ × ℕ
  | 0, n, e => (n, e)
  | left + 1, n, e => if n % 10 = 0 then stripZeros left (n / 10) (e + 1) else (n, e)

/-- `CompressAmount`, with its assertion. -/
def compressAmount (n : ℕ) : Option ℕ :=
  if n = 0 then some 0
  else
    let (n, e) := stripZeros 9 n 0
    if e < 9 then
      let d := n % 10
      if 1 ≤ d ∧ d ≤ 9 then some ((1 + (n / 10 * 9 + d - 1) * 10 + e) % 2 ^ 64) else none
    else some ((1 + (n - 1) * 10 + 9) % 2 ^ 64)

def timesTen : ℕ → ℕ → ℕ
  | 0, n => n
  | e + 1, n => timesTen e (n * 10 % 2 ^ 64)

/-- `CTxOutCompressor::DecompressAmount`. -/
def decompressAmount (x : ℕ) : ℕ :=
  if x = 0 then 0
  else
    let x := x - 1
    let e := x % 10
    let x := x / 10
    if e < 9 then timesTen e ((x / 9 * 10 + (x % 9 + 1)) % 2 ^ 64) else timesTen e (x + 1)

def serialize (txout : CTxOut) : Option Bytes := do
  let nVal ← compressAmount txout.nValue.toUInt64.toNat
  return writeVarInt 8 nVal ++ CScriptCompressor.serialize secp txout.scriptPubKey

/-- `Unserialize` into an output. -/
def unserialize (txout : CTxOut) : Read CTxOut := do
  let nVal ← readVarInt (2 ^ 64 - 1)
  let scriptPubKey ← CScriptCompressor.unserialize secp txout.scriptPubKey
  return ⟨(UInt64.ofNat (decompressAmount nVal)).toInt64, scriptPubKey⟩

end CTxOutCompressor

section Amounts

open CTxOutCompressor

lemma stripZeros_spec (left e : ℕ) {n : ℕ} (hn : n ≠ 0) :
    ∃ k ≤ left, (stripZeros left n e).2 = e + k ∧ (stripZeros left n e).1 * 10 ^ k = n ∧
      (stripZeros left n e).1 ≠ 0 ∧ (k < left → (stripZeros left n e).1 % 10 ≠ 0) := by
  induction left generalizing n e with
  | zero => exact ⟨0, le_refl 0, rfl, by simp [stripZeros], hn, by omega⟩
  | succ left ih =>
    by_cases hzero : n % 10 = 0
    · obtain ⟨k, hk, he, hprod, hne, hlast⟩ := ih (e + 1) (n := n / 10) (by omega)
      rw [stripZeros, if_pos hzero]
      refine ⟨k + 1, by omega, by omega, ?_, hne, fun h => hlast (by omega)⟩
      rw [pow_succ, ← mul_assoc, hprod]
      omega
    · rw [stripZeros, if_neg hzero]
      exact ⟨0, zero_le _, rfl, by simp, hn, fun _ => hzero⟩

lemma timesTen_eq {e n : ℕ} (h : n * 10 ^ e < 2 ^ 64) : timesTen e n = n * 10 ^ e := by
  induction e generalizing n with
  | zero => simp [timesTen]
  | succ e ih =>
    have hstep : n * 10 * 10 ^ e = n * 10 ^ (e + 1) := by
      rw [pow_succ]
      ring
    have hle : n * 10 ≤ n * 10 * 10 ^ e := Nat.le_mul_of_pos_right _ (by positivity)
    rw [timesTen, mod_eq_of_lt (by omega), ih (by omega), hstep]

lemma decompressAmount_compressAmount {n : ℕ} (hn : n ≤ 2100000000000000) :
    ∃ x, compressAmount n = some x ∧ x < 2 ^ 64 ∧ decompressAmount x = n := by
  by_cases hzero : n = 0
  · exact ⟨0, by simp [compressAmount, hzero], by norm_num, by simp [decompressAmount, hzero]⟩
  obtain ⟨k, hk, he, hprod, hne, hlast⟩ := stripZeros_spec 9 0 hzero
  rw [compressAmount, if_neg hzero]
  generalize stripZeros 9 n 0 = out at he hprod hne hlast
  obtain ⟨n', e⟩ := out
  obtain rfl : e = k := by simpa using he
  dsimp only at hprod hne hlast
  have hle : n' ≤ n := by
    rw [← hprod]
    exact Nat.le_mul_of_pos_right _ (by positivity)
  have hback : timesTen e n' = n := (timesTen_eq (by omega)).trans hprod
  by_cases he9 : e < 9
  · have hdigit : n' % 10 ≠ 0 := hlast he9
    refine ⟨1 + (n' / 10 * 9 + n' % 10 - 1) * 10 + e, ?_, by omega, ?_⟩
    · simp only [if_pos he9, if_pos (show 1 ≤ n' % 10 ∧ n' % 10 ≤ 9 by omega)]
      rw [mod_eq_of_lt (by omega)]
    · have hx : (1 + (n' / 10 * 9 + n' % 10 - 1) * 10 + e - 1) % 10 = e := by omega
      have hy : (1 + (n' / 10 * 9 + n' % 10 - 1) * 10 + e - 1) / 10 = n' / 10 * 9 + n' % 10 - 1 := by
        omega
      rw [decompressAmount, if_neg (by omega)]
      simp only [hx, hy, if_pos he9]
      rw [show (n' / 10 * 9 + n' % 10 - 1) / 9 * 10 + ((n' / 10 * 9 + n' % 10 - 1) % 9 + 1) = n' by
        omega, mod_eq_of_lt (by omega), hback]
  · refine ⟨1 + (n' - 1) * 10 + 9, ?_, by omega, ?_⟩
    · simp only [if_neg he9]
      rw [mod_eq_of_lt (by omega)]
    · obtain rfl : e = 9 := by omega
      rw [decompressAmount, if_neg (by omega)]
      simp only [show (1 + (n' - 1) * 10 + 9 - 1) % 10 = 9 by omega,
        show (1 + (n' - 1) * 10 + 9 - 1) / 10 + 1 = n' by omega, if_neg he9, hback]

end Amounts

section Scripts

open CScriptCompressor

lemma eq_append_of_frame {script front back : Bytes} (n : ℕ)
    (hlen : script.length = front.length + n + back.length)
    (hfront : ∀ i < front.length, script[i]? = front[i]?)
    (hback : ∀ i < back.length, script[front.length + n + i]? = back[i]?) :
    script = front ++ (script.drop front.length).take n ++ back := by
  have htake : script.take front.length = front := by
    refine ext_getElem? fun i => ?_
    by_cases hi : i < front.length
    · rw [getElem?_take_of_lt hi, hfront i hi]
    · rw [getElem?_eq_none (by simp; omega), getElem?_eq_none (by omega)]
  have hdrop : script.drop (front.length + n) = back := by
    refine ext_getElem? fun i => ?_
    rw [getElem?_drop]
    by_cases hi : i < back.length
    · exact hback i hi
    · rw [getElem?_eq_none (by omega), getElem?_eq_none (by omega)]
  calc script = script.take front.length ++ script.drop front.length :=
        (take_append_drop _ _).symm
    _ = front ++ ((script.drop front.length).take n ++ (script.drop front.length).drop n) := by
        rw [htake, take_append_drop]
    _ = front ++ (script.drop front.length).take n ++ back := by
        rw [drop_drop, hdrop, append_assoc]

variable {secp : Secp256k1} {script target : CScript} {vch compr : Bytes}

lemma isToKeyID_eq_some (h : isToKeyID script = some vch) :
    vch.length = 20 ∧ script = [OP_DUP, OP_HASH160, 20] ++ vch ++ [OP_EQUALVERIFY, OP_CHECKSIG] := by
  unfold isToKeyID at h
  split_ifs at h with hscript
  obtain rfl := Option.some.inj h
  simp only [and_eq_true, beq_iff_eq] at hscript
  obtain ⟨⟨⟨⟨⟨hlen, h0⟩, h1⟩, h2⟩, h23⟩, h24⟩ := hscript
  refine ⟨by simp [hlen], eq_append_of_frame 20 (by simpa using hlen) ?_ ?_⟩
  · intro i hi
    rcases (show i = 0 ∨ i = 1 ∨ i = 2 by simp at hi; omega) with rfl | rfl | rfl
    exacts [h0, h1, h2]
  · intro i hi
    rcases (show i = 0 ∨ i = 1 by simp at hi; omega) with rfl | rfl
    exacts [h23, h24]

lemma isToScriptID_eq_some (h : isToScriptID script = some vch) :
    vch.length = 20 ∧ script = [OP_HASH160, 20] ++ vch ++ [OP_EQUAL] := by
  unfold isToScriptID at h
  split_ifs at h with hscript
  obtain rfl := Option.some.inj h
  simp only [and_eq_true, beq_iff_eq] at hscript
  obtain ⟨⟨⟨hlen, h0⟩, h1⟩, h22⟩ := hscript
  refine ⟨by simp [hlen], eq_append_of_frame 20 (by simpa using hlen) ?_ ?_⟩
  · intro i hi
    rcases (show i = 0 ∨ i = 1 by simp at hi; omega) with rfl | rfl
    exacts [h0, h1]
  · intro i hi
    obtain rfl : i = 0 := by simpa using hi
    exact h22

lemma isToPubKey_eq_some (h : isToPubKey secp script = some vch) :
    script = [UInt8.ofNat vch.length] ++ vch ++ [OP_CHECKSIG] ∧
      (vch.length = 33 ∧ (vch[0]? = some 0x02 ∨ vch[0]? = some 0x03) ∨
        vch.length = 65 ∧ vch[0]? = some 0x04 ∧ CPubKey.isFullyValid secp vch = true) := by
  unfold isToPubKey at h
  split_ifs at h with hcompressed huncompressed
  · obtain rfl := Option.some.inj h
    simp only [and_eq_true, or_eq_true, beq_iff_eq] at hcompressed
    obtain ⟨⟨⟨hlen, h0⟩, h34⟩, h1⟩ := hcompressed
    have hkey : ((script.drop 1).take 33).length = 33 := by simp [hlen]
    refine ⟨?_, .inl ⟨hkey, by simpa using h1⟩⟩
    rw [hkey]
    refine eq_append_of_frame 33 (by simpa using hlen) ?_ ?_
    · intro i hi
      obtain rfl : i = 0 := by simpa using hi
      exact h0
    · intro i hi
      obtain rfl : i = 0 := by simpa using hi
      exact h34
  · dsimp only at h
    split_ifs at h with hvalid
    obtain rfl := Option.some.inj h
    simp only [and_eq_true, beq_iff_eq] at huncompressed
    obtain ⟨⟨⟨hlen, h0⟩, h66⟩, h1⟩ := huncompressed
    have hkey : ((script.drop 1).take 65).length = 65 := by simp [hlen]
    refine ⟨?_, .inr ⟨hkey, by simpa using h1, hvalid⟩⟩
    rw [hkey]
    refine eq_append_of_frame 65 (by simpa using hlen) ?_ ?_
    · intro i hi
      obtain rfl : i = 0 := by simpa using hi
      exact h0
    · intro i hi
      obtain rfl : i = 0 := by simpa using hi
      exact h66

lemma reads_special {nSize : ℕ} (hsize : nSize < nSpecialScripts)
    (hlen : vch.length = getSpecialSize nSize) (hscript : decompress secp nSize vch = some script) :
    Reads (unserialize secp target) (UInt8.ofNat nSize :: vch) script := by
  have htag : writeVarInt 4 nSize = [UInt8.ofNat nSize] := by
    unfold nSpecialScripts at hsize
    interval_cases nSize <;> decide
  have hread : Reads (readVarInt (2 ^ 32 - 1)) [UInt8.ofNat nSize] nSize := by
    unfold nSpecialScripts at hsize
    rw [← htag]
    exact reads_varInt (by norm_num) (by omega) (by omega)
  refine hread.bind ?_
  rw [if_pos hsize, ← hlen]
  have hvch := (reads_bytes vch).map fun vch => (decompress secp nSize vch).getD target
  rwa [show (decompress secp nSize vch).getD target = script by rw [hscript]; rfl] at hvch

/-- `CPubKey::Decompress` finds every fully valid uncompressed key from the first coordinate and the
parity of the second one. -/
def Secp256k1.InvertsCompression (secp : Secp256k1) : Prop :=
  ∀ pubkey : Bytes, pubkey.length = 65 → pubkey[0]? = some 0x04 →
    CPubKey.isFullyValid secp pubkey = true →
    CPubKey.decompress secp ((0x02 ||| (pubkey.getD 64 0 &&& 0x01)) :: (pubkey.drop 1).take 32) =
      some pubkey

lemma compressPubKey_of_compressed {chHeader : UInt8} {coordinate : Bytes}
    (hlen : coordinate.length = 32) (hheader : chHeader = 0x02 ∨ chHeader = 0x03) :
    compressPubKey (chHeader :: coordinate) = some (chHeader :: coordinate) := by
  simp [compressPubKey, hheader, take_of_length_le hlen.le]

lemma compressPubKey_of_uncompressed (coordinates : Bytes) :
    compressPubKey (0x04 :: coordinates) =
      some ((0x04 ||| (coordinates.getD 63 0 &&& 0x01)) :: coordinates.take 32) := by
  simp [compressPubKey]

lemma and_one_cases (b : UInt8) : b &&& 0x01 = 0 ∨ b &&& 0x01 = 1 := by
  have h : ∀ n : Fin 256, UInt8.ofNat n &&& 0x01 = 0 ∨ UInt8.ofNat n &&& 0x01 = 1 := by
    decide +kernel
  simpa using h ⟨b.toNat, b.toNat_lt⟩

lemma compress_eq_some (hinverts : secp.InvertsCompression) (h : compress secp script = some compr) :
    ∃ nSize < nSpecialScripts, ∃ vch, compr = UInt8.ofNat nSize :: vch ∧
      vch.length = getSpecialSize nSize ∧ decompress secp nSize vch = some script := by
  unfold compress at h
  cases hkeyID : isToKeyID script with
  | some keyID =>
    obtain ⟨hlen, rfl⟩ := isToKeyID_eq_some hkeyID
    rw [hkeyID] at h
    exact ⟨0, by decide, keyID, (Option.some.inj h).symm, hlen, rfl⟩
  | none =>
    cases hscriptID : isToScriptID script with
    | some scriptID =>
      obtain ⟨hlen, rfl⟩ := isToScriptID_eq_some hscriptID
      simp only [hkeyID, hscriptID] at h
      exact ⟨1, by decide, scriptID, (Option.some.inj h).symm, hlen, rfl⟩
    | none =>
      simp only [hkeyID, hscriptID] at h
      obtain ⟨pubkey, hpubkey, hcompr⟩ := Option.bind_eq_some_iff.mp h
      obtain ⟨hscript, hform⟩ := isToPubKey_eq_some hpubkey
      obtain ⟨hlen, hheader⟩ | ⟨hlen, hheader, hvalid⟩ := hform
      · obtain ⟨chHeader, coordinate, rfl⟩ :=
          exists_cons_of_length_pos (show 0 < pubkey.length by omega)
        have hcoordinate : coordinate.length = 32 := by simpa using hlen
        have hheader' : chHeader = 0x02 ∨ chHeader = 0x03 := by simpa using hheader
        rw [compressPubKey_of_compressed hcoordinate hheader'] at hcompr
        obtain rfl := Option.some.inj hcompr
        rw [hlen] at hscript
        rcases hheader' with rfl | rfl
        · exact ⟨2, by decide, coordinate, rfl, hcoordinate, by rw [hscript]; rfl⟩
        · exact ⟨3, by decide, coordinate, rfl, hcoordinate, by rw [hscript]; rfl⟩
      · have hback := hinverts pubkey hlen hheader hvalid
        obtain ⟨chHeader, coordinates, rfl⟩ :=
          exists_cons_of_length_pos (show 0 < pubkey.length by omega)
        obtain rfl : chHeader = 0x04 := by simpa using hheader
        have hcoordinates : coordinates.length = 64 := by simpa using hlen
        have hfirst : (coordinates.take 32).length = 32 := by simp [hcoordinates]
        rw [compressPubKey_of_uncompressed] at hcompr
        obtain rfl := Option.some.inj hcompr
        simp only [getD_cons_succ, drop_succ_cons, drop_zero] at hback
        rw [hlen] at hscript
        -- the tag of the even point is 4, that of the odd point is 5
        rcases and_one_cases (coordinates.getD 63 0) with hparity | hparity
        · rw [hparity] at hback ⊢
          refine ⟨4, by decide, coordinates.take 32, rfl, hfirst, ?_⟩
          rw [decompress, show UInt8.ofNat (4 - 2) = 0x02 ||| 0 from rfl, hback, hscript]
          rfl
        · rw [hparity] at hback ⊢
          refine ⟨5, by decide, coordinates.take 32, rfl, hfirst, ?_⟩
          rw [decompress, show UInt8.ofNat (5 - 2) = 0x02 ||| 1 from rfl, hback, hscript]
          rfl

variable (target) in
lemma reads_script (hinverts : secp.InvertsCompression) (hscript : script.length ≤ MAX_SCRIPT_SIZE) :
    Reads (unserialize secp target) (serialize secp script) script := by
  have hmax : script.length ≤ 10000 := hscript
  unfold serialize
  cases hcompress : compress secp script with
  | some compr =>
    obtain ⟨nSize, hsize, vch, rfl, hlen, hdecompress⟩ := compress_eq_some hinverts hcompress
    exact reads_special hsize hlen hdecompress
  | none =>
    dsimp only
    have hplain : ¬script.length + nSpecialScripts < nSpecialScripts := by omega
    rw [mod_eq_of_lt (by unfold nSpecialScripts; omega)]
    refine (reads_varInt (by norm_num) (by unfold nSpecialScripts; omega)
      (by unfold nSpecialScripts; omega)).bind ?_
    rw [if_neg hplain, Nat.add_sub_cancel, if_neg (Nat.not_lt.mpr hscript)]
    exact reads_bytes script

end Scripts

end MutableBitcoin

/-!
## Coins on disk

How `coins.h` writes a coin to the database and `undo.h` a spent one to the undo file. Writing gives
nothing where the code asserts or overflows an `int`.
-/

namespace MutableBitcoin
open Lib List Bool Nat

namespace Coin

variable (secp : Secp256k1) (coin : Coin)

/-- `nHeight * 2` with the flag in the lowest bit. The field `nHeight` has 31 bits, so the product is
an `int`. -/
def code : Option ℕ :=
  if coin.nHeight * 2 < 2 ^ 31 then some (coin.nHeight * 2 + coin.fCoinBase.toNat) else none

def serialize : Option Bytes :=
  if coin.isSpent then none
  else do
    let code ← coin.code
    let out ← CTxOutCompressor.serialize secp coin.out
    return writeVarInt 4 code ++ out

/-- `Unserialize` into a coin. -/
def unserialize : Read Coin := do
  let code ← readVarInt (2 ^ 32 - 1)
  let out ← CTxOutCompressor.unserialize secp coin.out
  return ⟨out, code % 2 == 1, code / 2⟩

end Coin

/-- `TxInUndoSerializer`. The zero is required to maintain compatibility with older undo format. -/
def txInUndoSerialize (secp : Secp256k1) (txout : Coin) : Option Bytes := do
  let code ← txout.code
  let out ← CTxOutCompressor.serialize secp txout.out
  return writeVarInt 4 code ++ ((if 0 < txout.nHeight then [0] else []) ++ out)

/-- The number that old versions stored, an `int`. -/
def readVersionDummy (nHeight : ℕ) : Read Unit :=
  if 0 < nHeight then do
    let _ ← readVarInt (2 ^ 31 - 1)
    return ()
  else pure ()

/-- `TxInUndoDeserializer` on a coin. -/
def txInUndoUnserialize (secp : Secp256k1) (txout : Coin) : Read Coin := do
  let nCode ← readVarInt (2 ^ 32 - 1)
  readVersionDummy (nCode / 2)
  let out ← CTxOutCompressor.unserialize secp txout.out
  return ⟨out, nCode % 2 == 1, nCode / 2⟩

section RoundTrip

variable {secp : Secp256k1} {coin target : Coin}

lemma code_eq_some (hheight : coin.nHeight < 2 ^ 30) :
    ∃ code, coin.code = some code ∧ Reads (readVarInt (2 ^ 32 - 1)) (writeVarInt 4 code) code ∧
      code / 2 = coin.nHeight ∧ (code % 2 == 1) = coin.fCoinBase := by
  have hflag : coin.fCoinBase.toNat ≤ 1 := toNat_le _
  refine ⟨coin.nHeight * 2 + coin.fCoinBase.toNat, if_pos (by omega),
    reads_varInt (by norm_num) (by omega) (by omega), by omega, ?_⟩
  cases coin.fCoinBase with
  | false => simp
  | true => simp [add_mod]

lemma toNat_of_nonneg {v : CAmount} (hv : 0 ≤ v.toInt) : (v.toUInt64.toNat : ℤ) = v.toInt := by
  have hint : v.toInt = if 2 * v.toUInt64.toNat < 2 ^ 64 then (v.toUInt64.toNat : ℤ)
      else (v.toUInt64.toNat : ℤ) - (2 ^ 64 : ℕ) := BitVec.toInt_eq_toNat_cond v.toBitVec
  have hlt := v.toUInt64.toNat_lt
  split_ifs at hint with hsmall
  · exact hint.symm
  · omega

lemma reads_compressedTxOut (hinverts : secp.InvertsCompression) (old : CTxOut) {txout : CTxOut}
    (hvalue : moneyRange txout.nValue = true) (hscript : txout.scriptPubKey.length ≤ MAX_SCRIPT_SIZE) :
    ∃ out, CTxOutCompressor.serialize secp txout = some out ∧
      Reads (CTxOutCompressor.unserialize secp old) out txout := by
  obtain ⟨hnonneg, hle⟩ := moneyRange_iff.mp hvalue
  have hnat : (txout.nValue.toUInt64.toNat : ℤ) = txout.nValue.toInt := toNat_of_nonneg hnonneg
  obtain ⟨nVal, hcompress, hlt, hdecompress⟩ :=
    decompressAmount_compressAmount (n := txout.nValue.toUInt64.toNat) (by omega)
  have hback : (UInt64.ofNat (CTxOutCompressor.decompressAmount nVal)).toInt64 = txout.nValue := by
    rw [hdecompress, UInt64.ofNat_toNat]
    rfl
  refine ⟨writeVarInt 8 nVal ++ CScriptCompressor.serialize secp txout.scriptPubKey, ?_, ?_⟩
  · rw [CTxOutCompressor.serialize, hcompress]
    rfl
  · refine (reads_varInt (by norm_num) (by omega) (by omega)).bind ?_
    have hread := (reads_script old.scriptPubKey hinverts hscript).map
      fun scriptPubKey => (⟨(UInt64.ofNat (CTxOutCompressor.decompressAmount nVal)).toInt64,
        scriptPubKey⟩ : CTxOut)
    have htxout : (⟨(UInt64.ofNat (CTxOutCompressor.decompressAmount nVal)).toInt64,
        txout.scriptPubKey⟩ : CTxOut) = txout := by rw [hback]
    rwa [htxout] at hread

/-- A coin with a value in range, a height below 2^30 and a script of at most `MAX_SCRIPT_SIZE` bytes
is read back from the bytes that are written for it, in the database and in the undo file, and
nothing behind them is read. -/
theorem coin_record_roundtrip (secp : Secp256k1) (hinverts : secp.InvertsCompression)
    (coin target : Coin) (hvalue : moneyRange coin.out.nValue = true)
    (hheight : coin.nHeight < 2 ^ 30) (hscript : coin.out.scriptPubKey.length ≤ MAX_SCRIPT_SIZE) :
    (∃ bytes, coin.serialize secp = some bytes ∧
      ∀ rest, target.unserialize secp (bytes ++ rest) = .ok (coin, rest)) ∧
    ∃ bytes, txInUndoSerialize secp coin = some bytes ∧
      ∀ rest, txInUndoUnserialize secp target (bytes ++ rest) = .ok (coin, rest) := by
  obtain ⟨code, hcode, hread, hdiv, hmod⟩ := code_eq_some hheight
  obtain ⟨out, hout, hreadOut⟩ := reads_compressedTxOut hinverts target.out hvalue hscript
  have hcoin : (⟨coin.out, code % 2 == 1, code / 2⟩ : Coin) = coin := by rw [hdiv, hmod]
  have hspent : coin.isSpent = false := by
    have hnonneg := (moneyRange_iff.mp hvalue).1
    have hneg : (-1 : CAmount).toInt = -1 := by decide
    simp only [Coin.isSpent, CTxOut.isNull, beq_eq_false_iff_ne]
    rintro hnull
    rw [hnull, hneg] at hnonneg
    omega
  constructor
  · refine ⟨writeVarInt 4 code ++ out, ?_, ?_⟩
    · rw [Coin.serialize, hspent, hcode, hout]
      rfl
    · have hrest : Reads (target.unserialize secp) (writeVarInt 4 code ++ out)
          ⟨coin.out, code % 2 == 1, code / 2⟩ :=
        hread.bind (hreadOut.map fun out => (⟨out, code % 2 == 1, code / 2⟩ : Coin))
      rwa [hcoin] at hrest
  · refine ⟨writeVarInt 4 code ++ ((if 0 < coin.nHeight then [0] else []) ++ out), ?_, ?_⟩
    · rw [txInUndoSerialize, hcode, hout]
      rfl
    · have hdummy : Reads (readVersionDummy (code / 2)) (if 0 < coin.nHeight then [0] else []) () := by
        rw [hdiv, readVersionDummy]
        split_ifs with hpos
        · -- a byte 0 is the number 0 of any type
          exact Reads.map (fun _ => rfl) fun _ => ()
        · exact reads_pure ()
      have hrest : Reads (txInUndoUnserialize secp target)
          (writeVarInt 4 code ++ ((if 0 < coin.nHeight then [0] else []) ++ out))
          ⟨coin.out, code % 2 == 1, code / 2⟩ :=
        hread.bind (hdummy.bind (hreadOut.map fun out => (⟨out, code % 2 == 1, code / 2⟩ : Coin)))
      rwa [hcoin] at hrest

end RoundTrip

section Generator

def generatorBytes : Bytes :=
  [0x79, 0xbe, 0x66, 0x7e, 0xf9, 0xdc, 0xbb, 0xac, 0x55, 0xa0, 0x62, 0x95, 0xce, 0x87, 0x0b, 0x07,
    0x02, 0x9b, 0xfc, 0xdb, 0x2d, 0xce, 0x28, 0xd9, 0x59, 0xf2, 0x81, 0x5b, 0x16, 0xf8, 0x17, 0x98,
    0x48, 0x3a, 0xda, 0x77, 0x26, 0xa3, 0xc4, 0x65, 0x5d, 0xa4, 0xfb, 0xfc, 0x0e, 0x11, 0x08, 0xa8,
    0xfd, 0x17, 0xb4, 0x48, 0xa6, 0x85, 0x54, 0x19, 0x9c, 0x47, 0xd0, 0x8f, 0xfb, 0x10, 0xd4, 0xb8]

lemma length_generatorBytes : generatorBytes.length = 64 := rfl

def generatorOnly : Secp256k1 where
  Point := Unit
  ecPubkeyParse vch :=
    if vch = 0x04 :: generatorBytes ∨ vch = 0x02 :: generatorBytes.take 32 then some () else none
  ecPubkeySerialize _ := ⟨generatorBytes, length_generatorBytes⟩

lemma generatorOnly_invertsCompression : generatorOnly.InvertsCompression := by
  intro pubkey hlen hheader hvalid
  have hparse : pubkey = 0x04 :: generatorBytes ∨ pubkey = 0x02 :: generatorBytes.take 32 := by
    by_contra hno
    simp [CPubKey.isFullyValid, generatorOnly, hno] at hvalid
  rcases hparse with rfl | rfl
  · decide
  · simp at hheader

def generatorCoin : Coin :=
  ⟨⟨5000000000, [65, 0x04] ++ generatorBytes ++ [Opcode.OP_CHECKSIG]⟩, true, 1⟩

theorem coin_record_roundtrip_generator :
    (∃ bytes, generatorCoin.serialize generatorOnly = some bytes ∧
      ∀ rest, Coin.empty.unserialize generatorOnly (bytes ++ rest) = .ok (generatorCoin, rest)) ∧
    ∃ bytes, txInUndoSerialize generatorOnly generatorCoin = some bytes ∧
      ∀ rest, txInUndoUnserialize generatorOnly Coin.empty (bytes ++ rest) =
        .ok (generatorCoin, rest) :=
  coin_record_roundtrip generatorOnly generatorOnly_invertsCompression generatorCoin Coin.empty
    (by decide) (by decide) (by decide)

end Generator

end MutableBitcoin
