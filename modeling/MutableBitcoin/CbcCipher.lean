import MutableBitcoin.Uint256

/-!
# Encryption of byte strings

`CBCEncrypt` and `CBCDecrypt` of `aes.cpp`, over the block cipher of `ctaes`. A pointer into the data is the suffix
it points to, and one into the output its distance from the start.
-/

namespace MutableBitcoin
open Lib List

def AES_BLOCKSIZE : ℕ := 16

abbrev AesBlock := BaseBlob 16

/-- The block cipher for keys of one size: `AES128_init` or `AES256_init` with the encryption and the
decryption of one block. -/
structure Aes (keySize : ℕ) where
  encrypt : BaseBlob keySize → AesBlock → AesBlock
  decrypt : BaseBlob keySize → AesBlock → AesBlock

/-- The addition of two `int`. -/
def addInt (a b : ℕ) : Option ℕ := if a + b < 2 ^ 31 then some (a + b) else none

def readChunk (n : ℕ) (data : Bytes) : Option (Bytes × Bytes) :=
  if n ≤ data.length then some (data.take n, data.drop n) else none

def readBlock (data : Bytes) (pos : ℕ) : Option AesBlock :=
  if h : pos + 16 ≤ data.length then
    some ⟨(data.drop pos).take 16, by rw [length_take, length_drop]; omega⟩
  else none

def writeBlock (out : Bytes) (pos : ℕ) (block : AesBlock) : Option Bytes :=
  if pos + 16 ≤ out.length then some (out.take pos ++ block.data ++ out.drop (pos + 16)) else none

/-- `mixed[i] ^= *data++` for the bytes that there are. -/
def xorBlock (mixed : AesBlock) (bytes : Bytes) : AesBlock :=
  ⟨List.zipWith (· ^^^ ·) mixed.data bytes ++ mixed.data.drop bytes.length, by
    rw [length_append, length_zipWith, length_drop, mixed.length_data]
    omega⟩

section Encrypt

variable (enc : AesBlock → AesBlock)

/-- The variables of the loop that encrypts. -/
structure EncryptState where
  written : ℕ
  data : Bytes
  mixed : AesBlock
  out : Bytes

/-- The block loop of `CBCEncrypt`. -/
def encryptLoop (size : ℕ) : ℕ → EncryptState → Option EncryptState
  | 0, _ => none
  | fuel + 1, s => do
    let next ← addInt s.written AES_BLOCKSIZE
    if next ≤ size then do
      let (chunk, data) ← readChunk AES_BLOCKSIZE s.data
      let cipher := enc (xorBlock s.mixed chunk)
      let out ← writeBlock s.out s.written cipher
      encryptLoop size fuel ⟨next, data, cipher, out⟩
    else return s

def encryptLast (padsize : ℕ) (s : EncryptState) : Option (ℕ × Bytes) := do
  let (chunk, _) ← readChunk padsize s.data
  let fill := List.replicate (AES_BLOCKSIZE - padsize) (UInt8.ofNat (AES_BLOCKSIZE - padsize))
  let out ← writeBlock s.out s.written (enc (xorBlock s.mixed (chunk ++ fill)))
  let written ← addInt s.written AES_BLOCKSIZE
  return (written, out)

/-- `CBCEncrypt`: the return value and the output. -/
def cbcEncrypt (iv : AesBlock) (data : Bytes) (size : ℕ) (pad : Bool) (out : Bytes) : Option (ℕ × Bytes) :=
  let padsize := size % AES_BLOCKSIZE
  if size = 0 then some (0, out)
  else if !pad && padsize != 0 then some (0, out)
  else do
    let s ← encryptLoop enc size (size + 1) ⟨0, data, iv, out⟩
    if pad then encryptLast enc padsize s else return (s.written, s.out)

end Encrypt

section Decrypt

variable (dec : AesBlock → AesBlock)

/-- The variables of the loop that decrypts. -/
structure DecryptState where
  written : ℕ
  prev : AesBlock
  outPos : ℕ
  out : Bytes

/-- The block loop of `CBCDecrypt`. -/
def decryptLoop (data : Bytes) (size : ℕ) : ℕ → DecryptState → Option DecryptState
  | 0, _ => none
  | fuel + 1, s =>
    if s.written = size then some s
    else do
      let cipher ← readBlock data s.written
      let out ← writeBlock s.out s.outPos (xorBlock (dec cipher) s.prev.data)
      let next ← addInt s.written AES_BLOCKSIZE
      decryptLoop data size fuel ⟨next, cipher, s.outPos + AES_BLOCKSIZE, out⟩

def byteAt (out : Bytes) (pos : ℤ) : Option UInt8 := if 0 ≤ pos then out[pos.toNat]? else none

/-- The loop over the last block, backwards: `fail |= ((i > AES_BLOCKSIZE - padsize) & (*out-- != padsize))`. -/
def checkPadding (out : Bytes) (padsize : UInt8) : ℕ → ℤ → Bool → Option Bool
  | 0, _, fail => some fail
  | i + 1, pos, fail => do
    let byte ← byteAt out pos
    checkPadding out padsize i (pos - 1) (fail || (AES_BLOCKSIZE - padsize.toNat < i + 1 && byte != padsize))

/-- The padding check of `CBCDecrypt`. -/
def decryptPadding (s : DecryptState) : Option ℤ := do
  let padsize ← byteAt s.out (s.outPos - 1)
  let fail := padsize == 0 || AES_BLOCKSIZE < padsize.toNat
  -- if not well-formed, treat it as though there is no padding
  let padsize := if fail then 0 else padsize
  let fail ← checkPadding s.out padsize AES_BLOCKSIZE (s.outPos - 1) fail
  return if fail then 0 else s.written - padsize.toNat

/-- `CBCDecrypt`: the return value and the output. -/
def cbcDecrypt (iv : AesBlock) (data : Bytes) (size : ℕ) (pad : Bool) (out : Bytes) : Option (ℤ × Bytes) :=
  if size = 0 then some (0, out)
  else if size % AES_BLOCKSIZE ≠ 0 then some (0, out)
  else do
    let s ← decryptLoop dec data size (size + 1) ⟨0, iv, 0, out⟩
    if pad then do
      let written ← decryptPadding s
      return (written, s.out)
    else return (s.written, s.out)

end Decrypt

/-- `AES256CBCEncrypt::Encrypt`, behind the constructor. -/
def aes256CBCEncrypt (aes : Aes 32) (key : BaseBlob 32) (iv : AesBlock) (pad : Bool) (data : Bytes) (size : ℕ)
    (out : Bytes) : Option (ℕ × Bytes) := cbcEncrypt (aes.encrypt key) iv data size pad out

def aes256CBCDecrypt (aes : Aes 32) (key : BaseBlob 32) (iv : AesBlock) (pad : Bool) (data : Bytes) (size : ℕ)
    (out : Bytes) : Option (ℤ × Bytes) := cbcDecrypt (aes.decrypt key) iv data size pad out

def aes128CBCEncrypt (aes : Aes 16) (key : BaseBlob 16) (iv : AesBlock) (pad : Bool) (data : Bytes) (size : ℕ)
    (out : Bytes) : Option (ℕ × Bytes) := cbcEncrypt (aes.encrypt key) iv data size pad out

def aes128CBCDecrypt (aes : Aes 16) (key : BaseBlob 16) (iv : AesBlock) (pad : Bool) (data : Bytes) (size : ℕ)
    (out : Bytes) : Option (ℤ × Bytes) := cbcDecrypt (aes.decrypt key) iv data size pad out

end MutableBitcoin
