import MutableBitcoin.Transaction

/-!
# Signature hashes

`SignatureHash` of `script/interpreter.cpp`. The outputs do not enter the legacy digest
directly: they are hashed first, the chameleon hash of that value under `rscriptSig` and
`sscriptSig` is taken, and the digest covers the result.
-/

namespace MutableBitcoin
open Lib

/-- `SigVersion`. -/
inductive SigVersion where
  | SIGVERSION_BASE
  | SIGVERSION_WITNESS_V0
deriving DecidableEq

def SIGHASH_NONE : UInt32 := 2
def SIGHASH_SINGLE : UInt32 := 3
def SIGHASH_ANYONECANPAY : UInt32 := 0x80

/-- `nHashType & 0x1f`. -/
def baseHashType (nHashType : Int32) : UInt32 := nHashType.toUInt32 &&& 0x1f

def hasAnyoneCanPay (nHashType : Int32) : Bool := nHashType.toUInt32 &&& SIGHASH_ANYONECANPAY != 0

/-- One separator found by the second loop of `SerializeScriptCode`, on the bytes written and
`itBegin`: writes up to the separator and moves `itBegin` behind it. -/
def codeSeparatorStep (acc : Bytes × Bytes) (r : CScript.GetOpResult) : Bytes × Bytes :=
  if r.opcodeRet = Opcode.OP_CODESEPARATOR then
    (acc.1 ++ acc.2.take (acc.2.length - r.pc.length - 1), r.pc)
  else acc

/-- Serializes the passed `scriptCode`, skipping `OP_CODESEPARATOR`s. -/
def serializeScriptCode (scriptCode : CScript) : Bytes :=
  let scan := CScript.scan scriptCode
  let nCodeSeparators := scan.ops.countP (fun r => r.opcodeRet = Opcode.OP_CODESEPARATOR)
  let (written, itBegin) := scan.ops.foldl codeSeparatorStep ([], scriptCode)
  writeCompactSize (scriptCode.length - nCodeSeparators) ++ written ++
    (if itBegin.isEmpty then [] else itBegin.take (itBegin.length - scan.pc.length))

/-- `CTransactionSignatureSerializer`. -/
structure CTransactionSignatureSerializer where
  txTo : CMutableTransaction
  scriptCode : CScript
  nIn : ℕ
  nHashType : Int32

namespace CTransactionSignatureSerializer

variable (z : CTransactionSignatureSerializer)

def fAnyoneCanPay : Bool := hasAnyoneCanPay z.nHashType

def fHashSingle : Bool := baseHashType z.nHashType == SIGHASH_SINGLE

def fHashNone : Bool := baseHashType z.nHashType == SIGHASH_NONE

/-- The index is in range whenever the serializer runs: `nIn` has been checked. -/
def serializeInput (nInput : ℕ) : Bytes :=
  let nInput := if z.fAnyoneCanPay then z.nIn else nInput
  match z.txTo.vin[nInput]? with
  | none => []
  | some txin =>
    txin.prevout.serialize ++
    (if nInput ≠ z.nIn then serializeBytes [] else serializeScriptCode z.scriptCode) ++
    (if nInput ≠ z.nIn ∧ (z.fHashSingle ∨ z.fHashNone) then serializeInt32 0
      else serializeUInt32 txin.nSequence)

/-- Only the number of outputs is written, the loop over the outputs is commented out. -/
def serialize : Bytes :=
  let nInputs := if z.fAnyoneCanPay then 1 else z.txTo.vin.length
  let nOutputs := if z.fHashNone then 0 else if z.fHashSingle then z.nIn + 1 else z.txTo.vout.length
  serializeInt32 z.txTo.nVersion ++
  writeCompactSize nInputs ++ (List.range nInputs).flatMap z.serializeInput ++
  writeCompactSize nOutputs ++ serializeUInt32 z.txTo.nLockTime

end CTransactionSignatureSerializer

section Hash

variable (sha256 : Bytes → Uint256)

def getPrevoutHash (txTo : CMutableTransaction) : Uint256 :=
  hash256 sha256 (txTo.vin.flatMap (fun txin => txin.prevout.serialize))

def getSequenceHash (txTo : CMutableTransaction) : Uint256 :=
  hash256 sha256 (txTo.vin.flatMap (fun txin => serializeUInt32 txin.nSequence))

def getOutputsHash (txTo : CMutableTransaction) : Uint256 :=
  hash256 sha256 (txTo.vout.flatMap CTxOut.serialize)

/-- The three hashes that all inputs of a transaction share. -/
structure PrecomputedTransactionData where
  hashPrevouts : Uint256
  hashSequence : Uint256
  hashOutputs : Uint256

def precomputedTransactionData (txTo : CMutableTransaction) : PrecomputedTransactionData :=
  ⟨getPrevoutHash sha256 txTo, getSequenceHash sha256 txTo, getOutputsHash sha256 txTo⟩

/-- The branch for `SIGVERSION_WITNESS_V0`; an index out of range is undefined behaviour. -/
def witnessSignatureHash (scriptCode : CScript) (txTo : CMutableTransaction) (nIn : ℕ)
    (nHashType : Int32) (amount : CAmount) (cache : Option PrecomputedTransactionData) :
    Option Uint256 := do
  let acp := hasAnyoneCanPay nHashType
  let single := baseHashType nHashType == SIGHASH_SINGLE
  let none' := baseHashType nHashType == SIGHASH_NONE
  let hashPrevouts := if !acp then
      (cache.map (·.hashPrevouts)).getD (getPrevoutHash sha256 txTo) else BaseBlob.null 32
  let hashSequence := if !acp && !single && !none' then
      (cache.map (·.hashSequence)).getD (getSequenceHash sha256 txTo) else BaseBlob.null 32
  let hashOutputs := if !single && !none' then
      (cache.map (·.hashOutputs)).getD (getOutputsHash sha256 txTo)
    else match single, txTo.vout[nIn]? with
      | true, some txout => hash256 sha256 txout.serialize
      | _, _ => BaseBlob.null 32
  let txin ← txTo.vin[nIn]?
  return hash256 sha256 (serializeInt32 txTo.nVersion ++ hashPrevouts.data ++ hashSequence.data ++
    txin.prevout.serialize ++ serializeBytes scriptCode ++ serializeInt64 amount ++
    serializeUInt32 txin.nSequence ++ hashOutputs.data ++ serializeUInt32 txTo.nLockTime ++
    serializeInt32 nHashType)

def sigHashOne : Uint256 :=
  uint256S (List.replicate 63 '0' ++ ['1'])

/-- `SignatureHash`. With `chamCollision` 2 the hash of the outputs is returned, with 1 its
chameleon hash, and with 0 the digest that signatures sign. -/
def signatureHash (scriptCode : CScript) (txTo : CMutableTransaction) (nIn : ℕ)
    (nHashType : Int32) (amount : CAmount) (sigversion : SigVersion)
    (cache : Option PrecomputedTransactionData) (chamCollision : ℕ) : Option Uint256 :=
  if chamCollision = 0 ∧ sigversion = .SIGVERSION_WITNESS_V0 then
    witnessSignatureHash sha256 scriptCode txTo nIn nHashType amount cache
  else if chamCollision = 0 ∧ txTo.vin.length ≤ nIn then some sigHashOne
  else if chamCollision = 0 ∧ baseHashType nHashType = SIGHASH_SINGLE ∧ txTo.vout.length ≤ nIn then
    some sigHashOne
  else
    -- `case 0` falls through to `default`
    let bitHash := hash256 sha256 (txTo.vout.flatMap CTxOut.serialize)
    if chamCollision = 2 then some bitHash
    else do
      let chamHashtxo ← chamHash sha256 bitHash txTo.rscriptSig txTo.sscriptSig
      if chamCollision = 1 then return chamHashtxo
      let txTmp : CTransactionSignatureSerializer := ⟨txTo, scriptCode, nIn, nHashType⟩
      return hash256 sha256 (chamHashtxo.data ++ txTmp.serialize ++ serializeInt32 nHashType)

end Hash

/-!
## Redaction of a transaction

Steps 1 to 6 of `CheckBlockUChain` in `validation.cpp`: the script of the first `OP_RETURN`
output is replaced by filler bytes, and two chameleon collisions are computed, one for the
hash of the outputs and then one for the id of the transaction. The second message contains
the result of the first collision.
-/

/-- The two instructions a mutant can carry: `6a226444` hides the data of a transaction,
`6a226341` replaces it. -/
inductive RedactOp where
  | hide
  | replace
deriving DecidableEq

/-- `ParseHex`: pairs of digits, with spaces between them, up to the first other character. -/
def parseHex : Str → Bytes
  | [] => []
  | c₁ :: psz =>
    if isspace c₁ then parseHex psz
    else match psz with
      | [] => []
      | c₂ :: psz =>
        match hexDigit c₁, hexDigit c₂ with
        | some hi, some lo => UInt8.ofNat (16 * hi + lo) :: parseHex psz
        | _, _ => []

def RedactOp.fillerText : RedactOp → Str
  | .replace => ['4', '1']
  | .hide => ['0', '0']

def RedactOp.fillerByte : RedactOp → UInt8
  | .replace => 0x41
  | .hide => 0x00

/-- `newScript << OP_RETURN << data` for an old script of `szO` bytes. -/
def redactedScript (op : RedactOp) (szO : ℕ) : CScript :=
  let datain := (List.replicate (szO - 2) op.fillerText).flatten
  CScript.pushData (CScript.pushOpcode [] Opcode.OP_RETURN) (parseHex datain)

/-- `scriptDel.size() > 0 && *(scriptDel.begin()) == OP_RETURN`. -/
def isOpReturn (script : CScript) : Bool := script.head? == some Opcode.OP_RETURN

/-- The index of the first output with an `OP_RETURN` script. -/
def firstOpReturn (vout : List CTxOut) : Option ℕ := vout.findIdx? (fun txout => isOpReturn txout.scriptPubKey)

/-- `newTXM.vout[k].scriptPubKey = newScript`. -/
def setScriptPubKey (vout : List CTxOut) (k : ℕ) (script : CScript) : List CTxOut :=
  vout.modify k (fun txout => { txout with scriptPubKey := script })

/-- The size of the script at an index, `scriptDel.size()`. -/
def scriptSizeAt (vout : List CTxOut) (k : ℕ) : ℕ :=
  match vout[k]? with
  | some txout => txout.scriptPubKey.length
  | none => 0

section Redact

variable (sha256 : Bytes → Uint256)

/-- The constructor `CTransaction(tx)` computes the id and aborts if `cHash` does. -/
def constructTransaction (tx : CMutableTransaction) : Option CMutableTransaction := do
  let _ ← computeHash sha256 tx
  return tx

/-- The hash of the outputs, `SignatureHash(..., SIGVERSION_BASE, dummycache, 2)`. -/
def outputsBitHash (tx : CMutableTransaction) : Option Uint256 :=
  signatureHash sha256 [] tx 0 0 0 .SIGVERSION_BASE none 2

/-- The message of the id, `SerializeHash(CTransaction(temp))`, with the randomness cleared. -/
def idBitHash (tx : CMutableTransaction) : Option Uint256 := do
  let temp ← constructTransaction sha256 tx.clearValue
  return serializeHash sha256 temp SER_GETHASH PROTOCOL_VERSION

/-- Steps 1 to 6 on the output with index `k`. -/
def redactAt (op : RedactOp) (k : ℕ) (oldTX : CMutableTransaction) : Option CMutableTransaction := do
  -- Step 1: hashBitTxold
  let m₁ := integerOfBlob (← idBitHash sha256 oldTX)
  let r₁ := integerOfBlob oldTX.rValue
  let s₁ := integerOfBlob oldTX.sValue
  let (_, h₁) ← CChamHash.cHash sha256 cChamHash m₁ r₁ s₁
  -- Step 2: hashBitScriptOld
  let m₁s := integerOfBlob (← outputsBitHash sha256 oldTX)
  let r₁s := integerOfBlob oldTX.rscriptSig
  let s₁s := integerOfBlob oldTX.sscriptSig
  let (_, h₁s) ← CChamHash.cHash sha256 cChamHash m₁s r₁s s₁s
  -- Step 3: change data
  let newScript := redactedScript op (scriptSizeAt oldTX.vout k)
  let newTXM := { oldTX with vout := setScriptPubKey oldTX.vout k newScript }
  -- Step 4: hashBitScriptNew
  let m₂s := integerOfBlob (← outputsBitHash sha256 (← constructTransaction sha256 newTXM))
  -- Step 5: calculate script "collision"
  let (r₂s, s₂s) ← CChamHash.hCol sha256 cChamHash h₁s m₁s r₁s s₁s m₂s
  CChamHash.hVer sha256 cChamHash h₁s m₁s r₁s s₁s m₂s r₂s s₂s
  let newTXM := { newTXM with
    rscriptSig := uint1024S (integertoHexString r₂s)
    sscriptSig := uint1024S (integertoHexString s₂s) }
  -- Step 6: calculate txid "collision"
  let m₂ := integerOfBlob (← idBitHash sha256 newTXM)
  let (r₂, s₂) ← CChamHash.hCol sha256 cChamHash h₁ m₁ r₁ s₁ m₂
  CChamHash.hVer sha256 cChamHash h₁ m₁ r₁ s₁ m₂ r₂ s₂
  let newTXM := { newTXM with
    rValue := uint1024S (integertoHexString r₂)
    sValue := uint1024S (integertoHexString s₂) }
  constructTransaction sha256 newTXM

/-- The redaction of the first `OP_RETURN` output. -/
def redact (op : RedactOp) (oldTX : CMutableTransaction) : Option CMutableTransaction := do
  let k ← firstOpReturn oldTX.vout
  redactAt sha256 op k oldTX

/-- The value of a transaction in the trie of versions, `valueMPT`. -/
def valueMPT (tx : CMutableTransaction) : Str :=
  (hash256 sha256 (tx.rValue.data ++ tx.sValue.data ++ tx.rscriptSig.data ++
    tx.sscriptSig.data)).getHex

end Redact

end MutableBitcoin
