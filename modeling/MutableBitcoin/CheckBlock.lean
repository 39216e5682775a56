import MutableBitcoin.Lib.ExceptOk
import MutableBitcoin.Block

/-!
# Checks of a block without the coins

`CheckTransaction` of `consensus/tx_verify.cpp`, `CheckProofOfWork` of `pow.cpp`, and `CheckBlock`
and `ContextualCheckBlock` of `validation.cpp`. A failed check returns the penalty, the reject
reason and the corruption flag that the source passes to `state.DoS`.
-/

namespace MutableBitcoin
open Lib

def COIN : CAmount := 100000000
def MAX_MONEY : CAmount := 21000000 * COIN

def moneyRange (nValue : CAmount) : Bool := 0 ≤ nValue && nValue ≤ MAX_MONEY

def WITNESS_SCALE_FACTOR : ℕ := 4
def MAX_BLOCK_WEIGHT : ℕ := 4000000
def MAX_BLOCK_SIGOPS_COST : ℕ := 80000
def LOCKTIME_THRESHOLD : ℕ := 500000000

/-- A failed check: penalty, reason and corruption flag. -/
structure Reject where
  nDoS : ℕ
  strRejectReason : String
  corruptionPossible : Bool

def reject {α : Type} (nDoS : ℕ) (reason : String) (corruption : Bool) : Except Reject α :=
  .error ⟨nDoS, reason, corruption⟩

/-- `if (c) return state.DoS(...)`. -/
def rejectIf (c : Bool) (nDoS : ℕ) (reason : String) (corruption : Bool) : Except Reject Unit :=
  if c then reject nDoS reason corruption else .ok ()

/-- The parameters that the checks of a block read. -/
structure ConsensusParams where
  powLimit : Uint256
  nSubsidyHalvingInterval : ℕ
  BIP34Height : ℕ

def networkStream : SerStream := ⟨SER_NETWORK, PROTOCOL_VERSION⟩

def strippedStream : SerStream := ⟨SER_NETWORK, PROTOCOL_VERSION ||| SERIALIZE_TRANSACTION_NO_WITNESS⟩

section Transaction

/-- The loop over `vout` in `CheckTransaction`. -/
def checkOutputs (nValueOut : CAmount) : List CTxOut → Except Reject Unit
  | [] => .ok ()
  | txout :: vout => do
    rejectIf (txout.nValue < 0) 100 "bad-txns-vout-negative" false
    rejectIf (MAX_MONEY < txout.nValue) 100 "bad-txns-vout-toolarge" false
    let nValueOut := nValueOut + txout.nValue
    rejectIf (!moneyRange nValueOut) 100 "bad-txns-txouttotal-toolarge" false
    checkOutputs nValueOut vout

def checkPrevouts (tx : CMutableTransaction) : Except Reject Unit :=
  if tx.isCoinBase then
    let size := ((tx.vin.map (·.scriptSig)).headD []).length
    rejectIf (size < 2 || 100 < size) 100 "bad-cb-length" false
  else rejectIf (tx.vin.any (·.prevout.isNull)) 10 "bad-txns-prevout-null" false

/-- `CheckTransaction`. -/
def checkTransaction (tx : CMutableTransaction) (fCheckDuplicateInputs : Bool) :
    Except Reject Unit := do
  rejectIf tx.vin.isEmpty 10 "bad-txns-vin-empty" false
  rejectIf tx.vout.isEmpty 10 "bad-txns-vout-empty" false
  rejectIf (MAX_BLOCK_WEIGHT < tx.getSerializeSize strippedStream * WITNESS_SCALE_FACTOR)
    100 "bad-txns-oversize" false
  checkOutputs 0 tx.vout
  rejectIf (fCheckDuplicateInputs && !decide (tx.vin.map (·.prevout)).Nodup)
    100 "bad-txns-inputs-duplicate" false
  checkPrevouts tx

def getLegacySigOpCount (tx : CMutableTransaction) : ℕ :=
  (tx.vin.map (fun txin => CScript.getSigOpCount txin.scriptSig false)).sum +
    (tx.vout.map (fun txout => CScript.getSigOpCount txout.scriptPubKey false)).sum

/-- `IsFinalTx`; the block time is signed, the lock time is not. -/
def isFinalTx (tx : CMutableTransaction) (nBlockHeight : ℕ) (nBlockTime : ℤ) : Bool :=
  tx.nLockTime == 0 ||
  (tx.nLockTime.toNat : ℤ) <
    (if tx.nLockTime.toNat < LOCKTIME_THRESHOLD then (nBlockHeight : ℤ) else nBlockTime) ||
  tx.vin.all (·.nSequence == SEQUENCE_FINAL)

end Transaction

section ProofOfWork

/-- `SetCompact`: the target with the flags `fNegative` and `fOverflow`. -/
def setCompact (nCompact : ℕ) : ℕ × Bool × Bool :=
  let nSize := nCompact >>> 24
  let nWord := nCompact &&& 0x007fffff
  let nWord := if nSize ≤ 3 then nWord >>> (8 * (3 - nSize)) else nWord
  let target := if nSize ≤ 3 then nWord else (nWord <<< (8 * (nSize - 3))) % 2 ^ 256
  (target, nWord != 0 && nCompact &&& 0x00800000 != 0,
    nWord != 0 && (34 < nSize || (0xff < nWord && 33 < nSize) || (0xffff < nWord && 32 < nSize)))

def checkProofOfWork (hash : Uint256) (nBits : UInt32) (params : ConsensusParams) : Bool :=
  let (bnTarget, fNegative, fOverflow) := setCompact nBits.toNat
  if fNegative || bnTarget = 0 || fOverflow || params.powLimit.value < bnTarget then false
  else hash.value ≤ bnTarget

end ProofOfWork

section Block

variable {sha256 : Bytes → Uint256}

def checkBlockHeader (sha256 : Bytes → Uint256) (block : CBlockHeader) (params : ConsensusParams) (fCheckPOW : Bool) :
    Except Reject Unit :=
  rejectIf (fCheckPOW && !checkProofOfWork (block.getHash sha256) block.nBits params)
    50 "high-hash" false

def checkMerkleRoot (block : CBlock sha256) : Except Reject Unit := do
  rejectIf (block.hashMerkleRoot != (blockMerkleRoot block).1) 100 "bad-txnmrklroot" true
  rejectIf (blockMerkleRoot block).2 100 "bad-txns-duplicate" true

/-- Returns the block with the flag `fChecked` as the call leaves it. -/
def checkBlock (block : CBlock sha256) (params : ConsensusParams) (fCheckPOW fCheckMerkleRoot : Bool) :
    Except Reject (CBlock sha256) :=
  if block.fChecked then .ok block
  else do
    checkBlockHeader sha256 block.toCBlockHeader params fCheckPOW
    (if fCheckMerkleRoot then checkMerkleRoot block else .ok ())
    rejectIf (block.vtx.isEmpty || MAX_BLOCK_WEIGHT < block.vtx.length * WITNESS_SCALE_FACTOR ||
      MAX_BLOCK_WEIGHT < block.getSerializeSize strippedStream * WITNESS_SCALE_FACTOR)
      100 "bad-blk-length" false
    rejectIf (!(block.vtx.head?.any (·.isCoinBase))) 100 "bad-cb-missing" false
    rejectIf (block.vtx.tail.any (·.isCoinBase)) 100 "bad-cb-multiple" false
    block.vtx.forM (fun tx => checkTransaction tx.toCMutableTransaction false)
    rejectIf (MAX_BLOCK_SIGOPS_COST <
      (block.vtx.map (fun tx => getLegacySigOpCount tx.toCMutableTransaction)).sum *
        WITNESS_SCALE_FACTOR) 100 "bad-blk-sigops" false
    return { block with fChecked := fCheckPOW && fCheckMerkleRoot }

/-- What `ContextualCheckBlock` reads of the previous block and the deployments. -/
structure BlockContext where
  nHeight : ℕ
  fCSV : Bool
  fSegwit : Bool
  medianTimePast : ℤ

def isWitnessCommitment (script : CScript) : Bool :=
  38 ≤ script.length && [Opcode.OP_RETURN, 0x24, 0xaa, 0x21, 0xa9, 0xed].isPrefixOf script

/-- The last output of the coinbase that matches, `none` for `-1`. -/
def getWitnessCommitmentIndex (block : CBlock sha256) : Option ℕ :=
  match block.vtx with
  | [] => none
  | coinbase :: _ => (coinbase.vout.zipIdx.filter
      (fun o => isWitnessCommitment o.1.scriptPubKey)).getLast?.map (·.2)

/-- `block.vtx[0]->vin[0]`, which exists in a block that `CheckBlock` accepted. -/
def coinbaseInput (block : CBlock sha256) : CTxIn :=
  ((block.vtx.head?.map (·.vin)).getD []).headD ⟨COutPoint.null, [], SEQUENCE_FINAL, []⟩

def coinbaseScriptPubKey (block : CBlock sha256) (o : ℕ) : CScript :=
  ((block.vtx.head?.map (·.vout)).getD []).getD o CTxOut.null |>.scriptPubKey

/-- The commitment check; `none` if the block has no commitment. -/
def checkWitnessCommitment (block : CBlock sha256) : Except Reject Bool :=
  match getWitnessCommitmentIndex block with
  | none => .ok false
  | some commitpos =>
    match (coinbaseInput block).scriptWitness with
    | [nonce] =>
      if nonce.length ≠ 32 then reject 100 "bad-witness-nonce-size" true
      else if (hash256 sha256 ((blockWitnessMerkleRoot block).1.data ++ nonce)).data ≠
          ((coinbaseScriptPubKey block commitpos).drop 6).take 32 then
        reject 100 "bad-witness-merkle-match" true
      else .ok true
    | _ => reject 100 "bad-witness-nonce-size" true

def getBlockWeight (block : CBlock sha256) : ℕ :=
  block.getSerializeSize strippedStream * (WITNESS_SCALE_FACTOR - 1) +
    block.getSerializeSize networkStream

/-- `ContextualCheckBlock`. -/
def contextualCheckBlock (block : CBlock sha256) (params : ConsensusParams) (ctx : BlockContext) :
    Except Reject Unit := do
  let nLockTimeCutoff : ℤ := if ctx.fCSV then ctx.medianTimePast else block.nTime.toNat
  rejectIf (block.vtx.any (fun tx => !isFinalTx tx.toCMutableTransaction ctx.nHeight nLockTimeCutoff))
    10 "bad-txns-nonfinal" false
  rejectIf (params.BIP34Height ≤ ctx.nHeight &&
    !(CScript.pushInt64 [] ctx.nHeight).isPrefixOf (coinbaseInput block).scriptSig)
    100 "bad-cb-height" false
  let fHaveWitness ← (if ctx.fSegwit then checkWitnessCommitment block else .ok false)
  rejectIf (!fHaveWitness && block.vtx.any (·.hasWitness)) 100 "unexpected-witness" true
  rejectIf (MAX_BLOCK_WEIGHT < getBlockWeight block) 100 "bad-blk-weight" false

end Block

end MutableBitcoin
