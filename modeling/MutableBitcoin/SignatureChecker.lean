import MutableBitcoin.CheckBlock

/-!
# Signature checkers

The script flags of `script/interpreter.h` and `policy/policy.h`, and
`TransactionSignatureChecker` of `script/interpreter.cpp`, through which a script reads the
transaction that it belongs to. ECDSA is an arbitrary function of the key, the digest and the
signature; the cache of signatures, whose entries commit to all three, is left out.
-/

namespace MutableBitcoin
open Lib

section Flags

def SCRIPT_VERIFY_P2SH : UInt32 := (1 : UInt32) <<< 0
def SCRIPT_VERIFY_STRICTENC : UInt32 := (1 : UInt32) <<< 1
def SCRIPT_VERIFY_DERSIG : UInt32 := (1 : UInt32) <<< 2
def SCRIPT_VERIFY_LOW_S : UInt32 := (1 : UInt32) <<< 3
def SCRIPT_VERIFY_NULLDUMMY : UInt32 := (1 : UInt32) <<< 4
def SCRIPT_VERIFY_MINIMALDATA : UInt32 := (1 : UInt32) <<< 6
def SCRIPT_VERIFY_DISCOURAGE_UPGRADABLE_NOPS : UInt32 := (1 : UInt32) <<< 7
def SCRIPT_VERIFY_CLEANSTACK : UInt32 := (1 : UInt32) <<< 8
def SCRIPT_VERIFY_CHECKLOCKTIMEVERIFY : UInt32 := (1 : UInt32) <<< 9
def SCRIPT_VERIFY_CHECKSEQUENCEVERIFY : UInt32 := (1 : UInt32) <<< 10
def SCRIPT_VERIFY_WITNESS : UInt32 := (1 : UInt32) <<< 11
def SCRIPT_VERIFY_DISCOURAGE_UPGRADABLE_WITNESS_PROGRAM : UInt32 := (1 : UInt32) <<< 12
def SCRIPT_VERIFY_MINIMALIF : UInt32 := (1 : UInt32) <<< 13
def SCRIPT_VERIFY_NULLFAIL : UInt32 := (1 : UInt32) <<< 14
def SCRIPT_VERIFY_WITNESS_PUBKEYTYPE : UInt32 := (1 : UInt32) <<< 15

def MANDATORY_SCRIPT_VERIFY_FLAGS : UInt32 := SCRIPT_VERIFY_P2SH

def STANDARD_SCRIPT_VERIFY_FLAGS : UInt32 :=
  MANDATORY_SCRIPT_VERIFY_FLAGS |||
  SCRIPT_VERIFY_DERSIG |||
  SCRIPT_VERIFY_STRICTENC |||
  SCRIPT_VERIFY_MINIMALDATA |||
  SCRIPT_VERIFY_NULLDUMMY |||
  SCRIPT_VERIFY_DISCOURAGE_UPGRADABLE_NOPS |||
  SCRIPT_VERIFY_CLEANSTACK |||
  SCRIPT_VERIFY_MINIMALIF |||
  SCRIPT_VERIFY_NULLFAIL |||
  SCRIPT_VERIFY_CHECKLOCKTIMEVERIFY |||
  SCRIPT_VERIFY_CHECKSEQUENCEVERIFY |||
  SCRIPT_VERIFY_LOW_S |||
  SCRIPT_VERIFY_WITNESS |||
  SCRIPT_VERIFY_DISCOURAGE_UPGRADABLE_WITNESS_PROGRAM |||
  SCRIPT_VERIFY_WITNESS_PUBKEYTYPE

def STANDARD_NOT_MANDATORY_VERIFY_FLAGS : UInt32 :=
  STANDARD_SCRIPT_VERIFY_FLAGS &&& ~~~MANDATORY_SCRIPT_VERIFY_FLAGS

def SEQUENCE_LOCKTIME_DISABLE_FLAG : UInt32 := (1 : UInt32) <<< 31
def SEQUENCE_LOCKTIME_TYPE_FLAG : UInt32 := (1 : UInt32) <<< 22
def SEQUENCE_LOCKTIME_MASK : UInt32 := 0x0000ffff

end Flags

/-- `(int64_t)x` for a `uint32_t`. -/
def int64OfUInt32 (x : UInt32) : Int64 := Int64.ofNat x.toNat

/-- `BaseSignatureChecker`. The check of a signature is `none` where hashing aborts. -/
structure SignatureChecker where
  checkSig : Bytes → Bytes → CScript → SigVersion → Option Bool
  checkLockTime : Int64 → Bool
  checkSequence : Int64 → Bool

/-- `CPubKey::GetLen`. -/
def pubKeyLen (chHeader : UInt8) : ℕ :=
  if chHeader = 2 ∨ chHeader = 3 then 33
  else if chHeader = 4 ∨ chHeader = 6 ∨ chHeader = 7 then 65
  else 0

/-- The constructor of `CPubKey` leaves a valid key. -/
def pubKeyIsValid (vch : Bytes) : Bool :=
  match vch with
  | [] => false
  | chHeader :: _ => pubKeyLen chHeader != 0 && pubKeyLen chHeader == vch.length

def lockReached (threshold lock txLock : Int64) : Bool :=
  ((decide (txLock < threshold) && decide (lock < threshold)) ||
    (decide (threshold ≤ txLock) && decide (threshold ≤ lock))) && !decide (txLock < lock)

section Checker

variable (sha256 : Bytes → Uint256) (pubKeyVerify : Bytes → Uint256 → Bytes → Bool)

/-- `TransactionSignatureChecker::CheckSig`. -/
def checkSig (tx : CMutableTransaction) (nIn : ℕ) (amount : CAmount)
    (txdata : PrecomputedTransactionData) (vchSigIn vchPubKey : Bytes) (scriptCode : CScript)
    (sigversion : SigVersion) : Option Bool :=
  if !pubKeyIsValid vchPubKey then some false
  else
    match vchSigIn.getLast? with
    | none => some false
    | some nHashType => do
      let sighash ← signatureHash sha256 scriptCode tx nIn (Int32.ofNat nHashType.toNat) amount
        sigversion (some txdata) 0
      return pubKeyVerify vchPubKey sighash vchSigIn.dropLast

def checkLockTime (tx : CMutableTransaction) (txin : CTxIn) (nLockTime : Int64) : Bool :=
  lockReached (Int64.ofNat LOCKTIME_THRESHOLD) nLockTime (int64OfUInt32 tx.nLockTime) &&
    !(SEQUENCE_FINAL == txin.nSequence)

/-- `CheckSequence`. -/
def checkSequence (tx : CMutableTransaction) (txin : CTxIn) (nSequence : Int64) : Bool :=
  let nLockTimeMask := int64OfUInt32 (SEQUENCE_LOCKTIME_TYPE_FLAG ||| SEQUENCE_LOCKTIME_MASK)
  let txToSequence := int64OfUInt32 txin.nSequence
  !decide (tx.nVersion.toUInt32 < 2) &&
  !(txToSequence &&& int64OfUInt32 SEQUENCE_LOCKTIME_DISABLE_FLAG != 0) &&
    lockReached (int64OfUInt32 SEQUENCE_LOCKTIME_TYPE_FLAG) (nSequence &&& nLockTimeMask)
      (txToSequence &&& nLockTimeMask)

/-- `TransactionSignatureChecker`. -/
def transactionSignatureChecker (txTo : CMutableTransaction) (nIn : Fin txTo.vin.length)
    (amount : CAmount) (txdata : PrecomputedTransactionData) : SignatureChecker where
  checkSig := checkSig sha256 pubKeyVerify txTo nIn amount txdata
  checkLockTime := checkLockTime txTo (txTo.vin.get nIn)
  checkSequence := checkSequence txTo (txTo.vin.get nIn)

end Checker

end MutableBitcoin

/-!
## Encodings of signatures and keys

The errors of `script/script_error.h`, the functions of cryptography that a script can reach, and
the encoding rules of `interpreter.cpp` for signatures, public keys and pushes. A rule that the
flags leave out accepts everything.
-/

namespace MutableBitcoin
open Lib Opcode

/-- `ScriptError_t`. -/
inductive ScriptError where
  | SCRIPT_ERR_UNKNOWN_ERROR
  | SCRIPT_ERR_EVAL_FALSE
  | SCRIPT_ERR_OP_RETURN
  | SCRIPT_ERR_SCRIPT_SIZE
  | SCRIPT_ERR_PUSH_SIZE
  | SCRIPT_ERR_OP_COUNT
  | SCRIPT_ERR_STACK_SIZE
  | SCRIPT_ERR_SIG_COUNT
  | SCRIPT_ERR_PUBKEY_COUNT
  | SCRIPT_ERR_VERIFY
  | SCRIPT_ERR_EQUALVERIFY
  | SCRIPT_ERR_CHECKMULTISIGVERIFY
  | SCRIPT_ERR_CHECKSIGVERIFY
  | SCRIPT_ERR_NUMEQUALVERIFY
  | SCRIPT_ERR_BAD_OPCODE
  | SCRIPT_ERR_DISABLED_OPCODE
  | SCRIPT_ERR_INVALID_STACK_OPERATION
  | SCRIPT_ERR_INVALID_ALTSTACK_OPERATION
  | SCRIPT_ERR_UNBALANCED_CONDITIONAL
  | SCRIPT_ERR_NEGATIVE_LOCKTIME
  | SCRIPT_ERR_UNSATISFIED_LOCKTIME
  | SCRIPT_ERR_SIG_HASHTYPE
  | SCRIPT_ERR_SIG_DER
  | SCRIPT_ERR_MINIMALDATA
  | SCRIPT_ERR_SIG_PUSHONLY
  | SCRIPT_ERR_SIG_HIGH_S
  | SCRIPT_ERR_SIG_NULLDUMMY
  | SCRIPT_ERR_PUBKEYTYPE
  | SCRIPT_ERR_CLEANSTACK
  | SCRIPT_ERR_MINIMALIF
  | SCRIPT_ERR_SIG_NULLFAIL
  | SCRIPT_ERR_DISCOURAGE_UPGRADABLE_NOPS
  | SCRIPT_ERR_DISCOURAGE_UPGRADABLE_WITNESS_PROGRAM
  | SCRIPT_ERR_WITNESS_PROGRAM_WRONG_LENGTH
  | SCRIPT_ERR_WITNESS_PROGRAM_WITNESS_EMPTY
  | SCRIPT_ERR_WITNESS_PROGRAM_MISMATCH
  | SCRIPT_ERR_WITNESS_MALLEATED
  | SCRIPT_ERR_WITNESS_MALLEATED_P2SH
  | SCRIPT_ERR_WITNESS_UNEXPECTED
  | SCRIPT_ERR_WITNESS_PUBKEYTYPE
deriving DecidableEq

open ScriptError

abbrev Uint160 := BaseBlob 20

/-- The functions of cryptography that a script reaches besides the signature checker. `CheckLowS`
is the test of the library for elliptic curves. -/
structure ScriptCrypto where
  ripemd160 : Bytes → Uint160
  sha1 : Bytes → Uint160
  sha256 : Bytes → Uint256
  checkLowS : Bytes → Bool

/-- `CHash160`. -/
def ScriptCrypto.hash160 (crypto : ScriptCrypto) (vch : Bytes) : Uint160 :=
  crypto.ripemd160 (crypto.sha256 vch).data

/-- `CHash256`. -/
def ScriptCrypto.hash256 (crypto : ScriptCrypto) (vch : Bytes) : Uint256 :=
  crypto.sha256 (crypto.sha256 vch).data

def SCRIPT_VERIFY_SIGPUSHONLY : UInt32 := (1 : UInt32) <<< 5

/-- `flags & flag` as a condition. -/
def hasFlag (flags flag : UInt32) : Bool := flags &&& flag != 0

lemma hasFlag_of_subset {flags flags' flag : UInt32} (hsubset : flags' &&& flags = flags')
    (h : hasFlag flags' flag = true) : hasFlag flags flag = true := by
  unfold hasFlag at h ⊢
  simp only [bne_iff_ne, ne_eq] at h ⊢
  intro hzero
  apply h
  calc flags' &&& flag = flags' &&& flags &&& flag := by rw [hsubset]
    _ = flags' &&& (flags &&& flag) := UInt32.and_assoc _ _ _
    _ = 0 := by rw [hzero, UInt32.and_zero]

/-- `IsCompressedOrUncompressedPubKey`. -/
def isCompressedOrUncompressedPubKey (vchPubKey : Bytes) : Bool :=
  if vchPubKey.length < 33 then false
  else
    let chHeader := vchPubKey.getD 0 0
    if chHeader = 0x04 then vchPubKey.length == 65
    else if chHeader = 0x02 ∨ chHeader = 0x03 then vchPubKey.length == 33
    else false

def isCompressedPubKey (vchPubKey : Bytes) : Bool :=
  vchPubKey.length == 33 && (vchPubKey.getD 0 0 == 0x02 || vchPubKey.getD 0 0 == 0x03)

def isPositiveInteger (sig : Bytes) (start len : ℕ) : Bool :=
  len != 0 && sig.getD start 0 &&& 0x80 == 0 &&
    !(decide (1 < len) && sig.getD start 0 == 0x00 && sig.getD (start + 1) 0 &&& 0x80 == 0)

/-- `IsValidSignatureEncoding`. -/
def isValidSignatureEncoding (sig : Bytes) : Bool :=
  let lenR := (sig.getD 3 0).toNat
  let lenS := (sig.getD (5 + lenR) 0).toNat
  decide (9 ≤ sig.length) && decide (sig.length ≤ 73) && sig.getD 0 0 == 0x30 &&
    (sig.getD 1 0).toNat == sig.length - 3 && decide (5 + lenR < sig.length) &&
    lenR + lenS + 7 == sig.length && sig.getD 2 0 == 0x02 && isPositiveInteger sig 4 lenR &&
    sig.getD (lenR + 4) 0 == 0x02 && isPositiveInteger sig (lenR + 6) lenS

/-- `IsDefinedHashtypeSignature`. -/
def isDefinedHashtypeSignature (vchSig : Bytes) : Bool :=
  match vchSig.getLast? with
  | none => false
  | some back =>
    -- SIGHASH_ALL to SIGHASH_SINGLE, whatever SIGHASH_ANYONECANPAY says
    let nHashType := back &&& ~~~SIGHASH_ANYONECANPAY.toUInt8
    1 ≤ nHashType && nHashType ≤ SIGHASH_SINGLE.toUInt8

section Encoding

variable (crypto : ScriptCrypto) (flags : UInt32)

def isLowDERSignature (vchSig : Bytes) : Except ScriptError Unit :=
  if !isValidSignatureEncoding vchSig then .error SCRIPT_ERR_SIG_DER
  else if !crypto.checkLowS vchSig.dropLast then .error SCRIPT_ERR_SIG_HIGH_S
  else .ok ()

/-- An empty signature is no DER encoding, but a compact way to provide an invalid signature. -/
def checkSignatureEncoding (vchSig : Bytes) : Except ScriptError Unit :=
  let lowS := if hasFlag flags SCRIPT_VERIFY_LOW_S then isLowDERSignature crypto vchSig else .ok ()
  if vchSig.length = 0 then .ok ()
  else if hasFlag flags (SCRIPT_VERIFY_DERSIG ||| SCRIPT_VERIFY_LOW_S ||| SCRIPT_VERIFY_STRICTENC) &&
      !isValidSignatureEncoding vchSig then .error SCRIPT_ERR_SIG_DER
  else lowS >>= fun _ =>
    if hasFlag flags SCRIPT_VERIFY_STRICTENC && !isDefinedHashtypeSignature vchSig then
      .error SCRIPT_ERR_SIG_HASHTYPE
    else .ok ()

/-- `CheckPubKeyEncoding`. -/
def checkPubKeyEncoding (sigversion : SigVersion) (vchPubKey : Bytes) : Except ScriptError Unit :=
  if hasFlag flags SCRIPT_VERIFY_STRICTENC && !isCompressedOrUncompressedPubKey vchPubKey then
    .error SCRIPT_ERR_PUBKEYTYPE
  -- only compressed keys are accepted in witness scripts
  else if hasFlag flags SCRIPT_VERIFY_WITNESS_PUBKEYTYPE && sigversion == .SIGVERSION_WITNESS_V0 &&
      !isCompressedPubKey vchPubKey then .error SCRIPT_ERR_WITNESS_PUBKEYTYPE
  else .ok ()

end Encoding

/-- `CheckMinimalPush`: the opcode is the shortest that pushes the data. -/
def checkMinimalPush (data : Bytes) (opcode : Opcode) : Bool :=
  let front := (data.getD 0 0).toNat
  if data.length = 0 then opcode == OP_0
  else if data.length = 1 ∧ 1 ≤ front ∧ front ≤ 16 then opcode.toNat == OP_1.toNat + (front - 1)
  else if data.length = 1 ∧ front = 0x81 then opcode == OP_1NEGATE
  else if data.length ≤ 75 then opcode.toNat == data.length
  else if data.length ≤ 255 then opcode == OP_PUSHDATA1
  else if data.length ≤ 65535 then opcode == OP_PUSHDATA2
  else true

end MutableBitcoin
