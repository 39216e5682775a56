import MutableBitcoin.Chameleon
import MutableBitcoin.Script

/-!
# Transactions and their hashes

The serialization of `serialize.h` and `primitives/transaction.h`, and the hashes of `hash.h` and
`primitives/transaction.cpp`. A transaction carries two pairs of chameleon randomness: `rValue`, `sValue` for its id
and `rscriptSig`, `sscriptSig` for the hash of its outputs that legacy signatures commit to.
-/

namespace MutableBitcoin
open Lib

def SER_NETWORK : ℕ := 1
def SER_DISK : ℕ := 2
def SER_GETHASH : ℕ := 4

def PROTOCOL_VERSION : ℕ := 70015
def CLIENT_VERSION : ℕ := 150000
def SERIALIZE_TRANSACTION_NO_WITNESS : ℕ := 0x40000000

/-- Type and version of a stream. -/
structure SerStream where
  nType : ℕ
  nVersion : ℕ

namespace SerStream

/-- `s.GetType() & SER_GETHASH`. -/
def forHash (s : SerStream) : Bool := s.nType &&& SER_GETHASH != 0

/-- `!(s.GetVersion() & SERIALIZE_TRANSACTION_NO_WITNESS)`. -/
def fAllowWitness (s : SerStream) : Bool := s.nVersion &&& SERIALIZE_TRANSACTION_NO_WITNESS == 0

end SerStream

def writeCompactSize (nSize : ℕ) : Bytes :=
  if nSize < 253 then [UInt8.ofNat nSize]
  else if nSize ≤ 0xffff then 253 :: leBytes 2 nSize
  else if nSize ≤ 0xffffffff then 254 :: leBytes 4 nSize
  else 255 :: leBytes 8 nSize

def serializeBytes (v : Bytes) : Bytes := writeCompactSize v.length ++ v

def serializeVector {α : Type} (serialize : α → Bytes) (v : List α) : Bytes :=
  writeCompactSize v.length ++ v.flatMap serialize

def serializeUInt32 (a : UInt32) : Bytes := leBytes 4 a.toNat

def serializeInt32 (a : Int32) : Bytes := leBytes 4 a.toUInt32.toNat

def serializeInt64 (a : Int64) : Bytes := leBytes 8 a.toUInt64.toNat

abbrev CAmount := Int64

/-- An output of a transaction. -/
structure COutPoint where
  hash : Uint256
  n : UInt32
deriving DecidableEq

namespace COutPoint

def null : COutPoint := ⟨BaseBlob.null 32, 0xffffffff⟩

def isNull (o : COutPoint) : Bool := o.hash.isNull && o.n == 0xffffffff

def serialize (o : COutPoint) : Bytes := o.hash.data ++ serializeUInt32 o.n

end COutPoint

/-- An input with its witness. -/
structure CTxIn where
  prevout : COutPoint
  scriptSig : CScript
  nSequence : UInt32
  scriptWitness : List Bytes
deriving DecidableEq

def SEQUENCE_FINAL : UInt32 := 0xffffffff

/-- The witness is serialized by the transaction, not by the input. -/
def CTxIn.serialize (txin : CTxIn) : Bytes :=
  txin.prevout.serialize ++ serializeBytes txin.scriptSig ++ serializeUInt32 txin.nSequence

/-- An output. -/
structure CTxOut where
  nValue : CAmount
  scriptPubKey : CScript
deriving DecidableEq

namespace CTxOut

/-- The state that `SetNull` leaves. -/
def null : CTxOut := ⟨-1, []⟩

def isNull (txout : CTxOut) : Bool := txout.nValue == -1

def serialize (txout : CTxOut) : Bytes :=
  serializeInt64 txout.nValue ++ serializeBytes txout.scriptPubKey

end CTxOut

/-- A transaction with its two pairs of chameleon randomness. -/
structure CMutableTransaction where
  rValue : Uint1024
  sValue : Uint1024
  rscriptSig : Uint1024
  sscriptSig : Uint1024
  nVersion : Int32
  vin : List CTxIn
  vout : List CTxOut
  nLockTime : UInt32
deriving DecidableEq

namespace CMutableTransaction

def hasWitness (tx : CMutableTransaction) : Bool := tx.vin.any (fun txin => !txin.scriptWitness.isEmpty)

def isCoinBase (tx : CMutableTransaction) : Bool :=
  match tx.vin with
  | [txin] => txin.prevout.isNull
  | _ => false

/-- `SerializeTransaction`. The randomness of the id is left out of hashes, the randomness of
the output hash is not. -/
def serialize (s : SerStream) (tx : CMutableTransaction) : Bytes :=
  let flags := s.fAllowWitness && tx.hasWitness
  (if s.forHash then [] else tx.rValue.data ++ tx.sValue.data) ++
  tx.rscriptSig.data ++ tx.sscriptSig.data ++ serializeInt32 tx.nVersion ++
  (if flags then serializeVector CTxIn.serialize [] ++ [1] else []) ++
  serializeVector CTxIn.serialize tx.vin ++
  serializeVector CTxOut.serialize tx.vout ++
  (if flags then tx.vin.flatMap (fun txin => serializeVector serializeBytes txin.scriptWitness)
    else []) ++
  serializeUInt32 tx.nLockTime

/-- `temp.rValue = uint1024(); temp.sValue = uint1024()` on a copy. -/
def clearValue (tx : CMutableTransaction) : CMutableTransaction :=
  { tx with rValue := BaseBlob.null 128, sValue := BaseBlob.null 128 }

def getSerializeSize (s : SerStream) (tx : CMutableTransaction) : ℕ := (tx.serialize s).length

end CMutableTransaction

section Hash

variable (sha256 : Bytes → Uint256)

/-- `CHash256`: SHA-256 applied twice. -/
def hash256 (m : Bytes) : Uint256 := sha256 (sha256 m).data

/-- `Integer(("0x" + b.GetHex()).c_str())`. -/
def integerOfBlob {width : ℕ} (b : BaseBlob width) : ℤ := integerOfText ('0' :: 'x' :: b.getHex)

/-- `SerializeHash` of a transaction. -/
def serializeHash (tx : CMutableTransaction) (nType : ℕ) (nVersion : ℕ) : Uint256 :=
  hash256 sha256 (tx.serialize ⟨nType, nVersion⟩)

def chamHash (bitHash : Uint256) (r s : Uint1024) : Option Uint256 := do
  let (sh₁, _) ← CChamHash.cHash sha256 cChamHash (integerOfBlob bitHash) (integerOfBlob r)
    (integerOfBlob s)
  return uint256S sh₁

/-- `SerializeHashCham` of a transaction. -/
def serializeHashCham (tx : CMutableTransaction) (nType nVersion : ℕ) (r s : Uint1024) :
    Option Uint256 :=
  chamHash sha256 (serializeHash sha256 tx nType nVersion) r s

/-- `ComputeHash`, the id that `GetHash` returns. -/
def computeHash (tx : CMutableTransaction) : Option Uint256 :=
  serializeHashCham sha256 tx.clearValue SER_GETHASH SERIALIZE_TRANSACTION_NO_WITNESS
    tx.rValue tx.sValue

def getWitnessHash (tx : CMutableTransaction) : Option Uint256 :=
  if !tx.hasWitness then computeHash sha256 tx
  else serializeHashCham sha256 tx.clearValue SER_GETHASH 0 tx.rValue tx.sValue

end Hash

lemma integerOfBlob_eq {width : ℕ} (b : BaseBlob width) : integerOfBlob b = b.value := by
  simp [integerOfBlob, integerOfText, skipHexPrefix, BaseBlob.hexValue_getHex]

lemma integerOfBlob_uint1024S {r : ℤ} (hr : 0 ≤ r ∧ r < cChamHash.q) :
    integerOfBlob (uint1024S (integertoHexString r)) = r := by
  have hq : cChamHash.q < 256 ^ 128 := by decide +kernel
  have hn : r.natAbs < 16 ^ 256 := by
    have : r < (16 : ℤ) ^ 256 := hr.2.trans (by rw [show (16 : ℤ) ^ 256 = 256 ^ 128 by norm_num]; exact hq)
    zify
    rw [abs_of_nonneg hr.1]
    exact this
  have hl : (Nat.toDigits 16 r.natAbs).length ≤ 2 * 128 :=
    (Nat.length_toDigits_le_iff (by norm_num) (by norm_num)).mpr hn
  have hv : (BaseBlob.setHex 128 (Nat.toDigits 16 r.natAbs ++ ['h'])).value =
      hexValue (Nat.toDigits 16 r.natAbs) :=
    BaseBlob.value_setHex (fun c hc => isSome_hexDigit_of_mem_toDigits hc) Nat.toDigits_ne_nil
      (by decide) (by decide) hl
  rw [integerOfBlob_eq, uint1024S, integertoHexString, if_neg (not_lt.mpr hr.1), List.nil_append,
    hv, hexValue_toDigits]
  exact Int.natAbs_of_nonneg hr.1

end MutableBitcoin
