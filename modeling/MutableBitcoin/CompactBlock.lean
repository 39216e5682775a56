import MutableBitcoin.Mempool
import MutableBitcoin.RoundTrip

/-!
# Compact blocks

`CBlockHeaderAndShortTxIDs` and `PartiallyDownloadedBlock` of `blockencodings.h` and
`blockencodings.cpp`, `SipHashUint256` of `hash.cpp`, and the ring of extra transactions of
`net_processing.cpp`. The access to a vector, the use of a pointer and a loop that would not end are
failures of the run, told apart from the statuses that the source returns.
-/

namespace MutableBitcoin
open Lib

def MAX_PROTOCOL_MESSAGE_LENGTH : ℕ := 4 * 1000 * 1000
def MIN_SERIALIZABLE_TRANSACTION_WEIGHT : ℕ := WITNESS_SCALE_FACTOR * 10

section SipHash

def BaseBlob.getUint64 {width : ℕ} (b : BaseBlob width) (pos : ℕ) : UInt64 :=
  UInt64.ofNat (leValue ((b.data.drop (pos * 8)).take 8))

def rotl64 (x b : UInt64) : UInt64 := (x <<< b) ||| (x >>> (64 - b))

/-- The four words of the state. -/
structure SipState where
  v0 : UInt64
  v1 : UInt64
  v2 : UInt64
  v3 : UInt64

namespace SipState

/-- `SIPROUND`. -/
def sipRound (v : SipState) : SipState :=
  let v0 := v.v0 + v.v1
  let v1 := rotl64 v.v1 13 ^^^ v0
  let v0 := rotl64 v0 32
  let v2 := v.v2 + v.v3
  let v3 := rotl64 v.v3 16 ^^^ v2
  let v0 := v0 + v3
  let v3 := rotl64 v3 21 ^^^ v0
  let v2 := v2 + v1
  let v1 := rotl64 v1 17 ^^^ v2
  let v2 := rotl64 v2 32
  ⟨v0, v1, v2, v3⟩

def absorb (d : UInt64) (v : SipState) : SipState :=
  let v := { v with v3 := v.v3 ^^^ d }
  let v := v.sipRound.sipRound
  { v with v0 := v.v0 ^^^ d }

end SipState

/-- `SipHashUint256`. -/
def sipHashUint256 (k0 k1 : UInt64) (val : Uint256) : UInt64 :=
  let v : SipState := ⟨0x736f6d6570736575 ^^^ k0, 0x646f72616e646f6d ^^^ k1, 0x6c7967656e657261 ^^^ k0,
    0x7465646279746573 ^^^ k1⟩
  let v := v.absorb (val.getUint64 0) |>.absorb (val.getUint64 1) |>.absorb (val.getUint64 2)
    |>.absorb (val.getUint64 3) |>.absorb ((4 : UInt64) <<< 59)
  let v := { v with v2 := v.v2 ^^^ 0xff }
  let v := v.sipRound.sipRound.sipRound.sipRound
  v.v0 ^^^ v.v1 ^^^ v.v2 ^^^ v.v3

end SipHash

def CBlockHeader.isNull (h : CBlockHeader) : Bool := h.nBits == 0

def CMutableTransaction.isNull (tx : CMutableTransaction) : Bool := tx.vin.isEmpty && tx.vout.isEmpty

def CTransaction.make (sha256 : Bytes → Uint256) (tx : CMutableTransaction) : Option (CTransaction sha256) :=
  (computeHash sha256 tx).pmap (fun hash h => ⟨tx, hash, h⟩) (fun _ h => h)

/-- A transaction that is sent along. -/
structure PrefilledTransaction (sha256 : Bytes → Uint256) where
  /-- An offset since the last prefilled transaction. -/
  index : UInt16
  tx : CTransaction sha256

/-- The message `cmpctblock`, with the key of its short ids. -/
structure CBlockHeaderAndShortTxIDs (sha256 : Bytes → Uint256) where
  shorttxidk0 : UInt64
  shorttxidk1 : UInt64
  nonce : UInt64
  shorttxids : List UInt64
  prefilledtxn : List (PrefilledTransaction sha256)
  header : CBlockHeader

section Message

variable {sha256 : Bytes → Uint256}

def serializeUInt64 (a : UInt64) : Bytes := leBytes 8 a.toNat

namespace CBlockHeaderAndShortTxIDs

/-- `FillShortTxIDSelector`: the keys are the first words of the hash of the header and the nonce. -/
def fillShortTxIDSelector (c : CBlockHeaderAndShortTxIDs sha256) : CBlockHeaderAndShortTxIDs sha256 :=
  let shorttxidhash := sha256 (c.header.serialize ++ serializeUInt64 c.nonce)
  { c with shorttxidk0 := shorttxidhash.getUint64 0, shorttxidk1 := shorttxidhash.getUint64 1 }

def getShortID (c : CBlockHeaderAndShortTxIDs sha256) (txhash : Uint256) : UInt64 :=
  sipHashUint256 c.shorttxidk0 c.shorttxidk1 txhash &&& 0xffffffffffff

def blockTxCount (c : CBlockHeaderAndShortTxIDs sha256) : ℕ := c.shorttxids.length + c.prefilledtxn.length

def make (block : CBlock sha256) (coinbase : CTransaction sha256) (fUseWTXID : Bool) (nonce : UInt64) :
    CBlockHeaderAndShortTxIDs sha256 :=
  let c := fillShortTxIDSelector ⟨0, 0, nonce, [], [⟨0, coinbase⟩], block.toCBlockHeader⟩
  { c with shorttxids := block.vtx.tail.map fun tx =>
      c.getShortID (if fUseWTXID then tx.witnessHash else tx.hash) }

def serializeShortID (id : UInt64) : Bytes :=
  leBytes 4 (id.toNat % 2 ^ 32) ++ leBytes 2 (id.toNat / 2 ^ 32 % 2 ^ 16)

def serializePrefilled (p : PrefilledTransaction sha256) : Bytes :=
  writeCompactSize p.index.toNat ++ p.tx.toCMutableTransaction.serialize networkStream

def serialize (c : CBlockHeaderAndShortTxIDs sha256) : Bytes :=
  c.header.serialize ++ serializeUInt64 c.nonce ++ serializeVector serializeShortID c.shorttxids ++
    serializeVector serializePrefilled c.prefilledtxn

end CBlockHeaderAndShortTxIDs

/-- The exceptions of the decoder, and a hash that aborts. -/
inductive DecodeFailure where
  | stream (failure : StreamFailure)
  | indexOverflow
  | hashAborts

abbrev Decode (α : Type) := StateT Bytes (Except DecodeFailure) α

def Decode.read {α : Type} (reader : Read α) : Decode α := fun vch => (reader vch).mapError .stream

/-- `CBlockHeader::SerializationOp`. -/
def ByteStream.readHeader {m : Type → Type} [Monad m] [ByteStream m] : m CBlockHeader := do
  let nVersion ← readInt32
  let hashPrevBlock ← readBlob 32
  let hashMerkleRoot ← readBlob 32
  let nTime ← readUInt32
  let nBits ← readUInt32
  let nNonce ← readUInt32
  let hashUChainVersion ← readBlob 32
  return ⟨nVersion, hashPrevBlock, hashMerkleRoot, nTime, nBits, nNonce, hashUChainVersion⟩

def readHeader : Read CBlockHeader := ByteStream.readHeader

def readUInt64 : Read UInt64 := do
  let n ← readNat 8
  return UInt64.ofNat n

def readShortID : Read UInt64 := do
  let lsb ← readNat 4
  let msb ← readNat 2
  return (UInt64.ofNat msb <<< 32) ||| UInt64.ofNat lsb

def decodeTransaction (sha256 : Bytes → Uint256) : Decode (CTransaction sha256) := do
  let tx ← Decode.read (unserializeTransaction networkStream)
  match CTransaction.make sha256 tx with
  | none => throw .hashAborts
  | some tx => return tx

def decodePrefilled (sha256 : Bytes → Uint256) : Decode (PrefilledTransaction sha256) := do
  let idx ← Decode.read readCompactSize
  if 0xffff < idx then throw .indexOverflow
  else do
    let tx ← decodeTransaction sha256
    return ⟨UInt16.ofNat idx, tx⟩

def decodeMany {α : Type} (decode : Decode α) : ℕ → Decode (List α)
  | 0 => pure []
  | n + 1 => do
    let a ← decode
    let v ← decodeMany decode n
    return a :: v

namespace CBlockHeaderAndShortTxIDs

def decode (sha256 : Bytes → Uint256) : Decode (CBlockHeaderAndShortTxIDs sha256) := do
  let header ← Decode.read readHeader
  let nonce ← Decode.read readUInt64
  let shorttxids ← Decode.read (readVector readShortID)
  let prefilledCount ← Decode.read readCompactSize
  let prefilledtxn ← decodeMany (decodePrefilled sha256) prefilledCount
  return fillShortTxIDSelector ⟨0, 0, nonce, shorttxids, prefilledtxn, header⟩

end CBlockHeaderAndShortTxIDs

end Message

section Ring

abbrev ExtraTxn (sha256 : Bytes → Uint256) := Uint256 × Option (CTransaction sha256)

def ExtraTxn.null (sha256 : Bytes → Uint256) : ExtraTxn sha256 := (BaseBlob.null 32, none)

def ExtraTxn.ofTx {sha256 : Bytes → Uint256} (tx : CTransaction sha256) : ExtraTxn sha256 :=
  (tx.witnessHash, some tx)

/-- `vExtraTxnForCompact` and `vExtraTxnForCompactIt`. -/
structure ExtraRing (sha256 : Bytes → Uint256) where
  vExtraTxnForCompact : List (ExtraTxn sha256)
  vExtraTxnForCompactIt : ℕ

variable {sha256 : Bytes → Uint256}

/-- `AddToCompactExtraTransactions`. -/
def addToCompactExtraTransactions (maxExtraTxn : ℕ) (tx : CTransaction sha256) (ring : ExtraRing sha256) :
    ExtraRing sha256 :=
  if maxExtraTxn = 0 then ring
  else
    let v := if ring.vExtraTxnForCompact.isEmpty then List.replicate maxExtraTxn (ExtraTxn.null sha256)
      else ring.vExtraTxnForCompact
    ⟨v.set ring.vExtraTxnForCompactIt (ExtraTxn.ofTx tx), (ring.vExtraTxnForCompactIt + 1) % maxExtraTxn⟩

/-- The rings that insertions lead to. -/
inductive RingReachable (maxExtraTxn : ℕ) : ExtraRing sha256 → Prop
  | start : RingReachable maxExtraTxn ⟨[], 0⟩
  | add {ring : ExtraRing sha256} (tx : CTransaction sha256) (h : RingReachable maxExtraTxn ring) :
      RingReachable maxExtraTxn (addToCompactExtraTransactions maxExtraTxn tx ring)

end Ring

/-- `ReadStatus`. -/
inductive ReadStatus where
  | READ_STATUS_OK
  | READ_STATUS_INVALID
  | READ_STATUS_FAILED
  | READ_STATUS_CHECKBLOCK_FAILED
deriving DecidableEq

/-- How a run ends that does not return `READ_STATUS_OK`. -/
inductive InitStop where
  | returned (status : ReadStatus)
  | outOfRange
  | danglingIterator
  | nullDereference
  | endlessLoop

/-- A block whose transactions are partly known. -/
structure PartiallyDownloadedBlock (sha256 : Bytes → Uint256) where
  txnAvailable : List (Option (CTransaction sha256))
  prefilledCount : ℕ
  mempoolCount : ℕ
  header : CBlockHeader

/-- `std::unordered_map<uint64_t, uint16_t>`. -/
abbrev ShortIDMap := Finmap (fun _ : UInt64 => UInt16)

/-- The variables of the scans of the pool and the extra transactions. -/
structure MatchState (sha256 : Bytes → Uint256) where
  txnAvailable : List (Option (CTransaction sha256))
  haveTxn : List Bool
  mempoolCount : ℕ

namespace PartiallyDownloadedBlock

variable {sha256 : Bytes → Uint256}

section Positions

/-- The loop over the prefilled transactions, from the `i`-th on. -/
def placePrefilled (nShort : ℕ) : ℕ → ℤ → List (PrefilledTransaction sha256) →
    List (Option (CTransaction sha256)) → Except InitStop (List (Option (CTransaction sha256)))
  | _, _, [], txnAvailable => .ok txnAvailable
  | i, lastprefilledindex, p :: prefilledtxn, txnAvailable =>
    if p.tx.isNull then .error (.returned .READ_STATUS_INVALID)
    else
      let lastprefilledindex := lastprefilledindex + (p.index.toNat + 1)
      if 0xffff < lastprefilledindex then .error (.returned .READ_STATUS_INVALID)
      else if nShort + i < lastprefilledindex.toNat then .error (.returned .READ_STATUS_INVALID)
      else if txnAvailable.length ≤ lastprefilledindex.toNat then .error .outOfRange
      else placePrefilled nShort (i + 1) lastprefilledindex prefilledtxn
        (txnAvailable.set lastprefilledindex.toNat (some p.tx))

/-- `while (txn_available[i + index_offset]) index_offset++`. The offset has 16 bits: after `2 ^ 16`
steps it has its first value again, and the loop runs on forever. -/
def skipFilled (txnAvailable : List (Option (CTransaction sha256))) (i : ℕ) : ℕ → UInt16 → Except InitStop UInt16
  | 0, _ => .error .endlessLoop
  | fuel + 1, indexOffset =>
    match txnAvailable[i + indexOffset.toNat]? with
    | none => .error .outOfRange
    | some none => .ok indexOffset
    | some (some _) => skipFilled txnAvailable i fuel (indexOffset + 1)

/-- `shorttxids.bucket_size(shorttxids.bucket(id))`: the keys in the bucket of `id`. The map was made
for `n` elements, so inserting as many does not change where the buckets are. -/
def bucketSize (bucket : ℕ → UInt64 → ℕ) (n : ℕ) (shorttxids : ShortIDMap) (id : UInt64) : ℕ :=
  (shorttxids.keys.filter (fun key => bucket n key = bucket n id)).card

/-- The loop that maps the short ids to positions, from the `i`-th on. -/
def mapShortIDs (bucket : ℕ → UInt64 → ℕ) (n : ℕ) (txnAvailable : List (Option (CTransaction sha256))) :
    ℕ → UInt16 → List UInt64 → ShortIDMap → Except InitStop ShortIDMap
  | _, _, [], shorttxids => .ok shorttxids
  | i, indexOffset, id :: ids, shorttxids => do
    let indexOffset ← skipFilled txnAvailable i (2 ^ 16) indexOffset
    let shorttxids := shorttxids.insert id (UInt16.ofNat (i + indexOffset.toNat))
    if 12 < bucketSize bucket n shorttxids id then .error (.returned .READ_STATUS_FAILED)
    else mapShortIDs bucket n txnAvailable (i + 1) indexOffset ids shorttxids

end Positions

section Scan

def fillPosition (st : MatchState sha256) (pos : ℕ) (tx : Option (CTransaction sha256)) :
    Except InitStop (MatchState sha256) :=
  if pos < st.txnAvailable.length then
    .ok ⟨st.txnAvailable.set pos tx, st.haveTxn.set pos true, st.mempoolCount + 1⟩
  else .error .outOfRange

def resetPosition (st : MatchState sha256) (pos : ℕ) : MatchState sha256 :=
  { st with txnAvailable := st.txnAvailable.set pos none, mempoolCount := st.mempoolCount - 1 }

variable (cmpctblock : CBlockHeaderAndShortTxIDs sha256) (shorttxids : ShortIDMap)

/-- The loop over `vTxHashes` in `InitData`. -/
def matchMempool (pool : CTxMemPool sha256) (st : MatchState sha256) (txHash : Uint256 × Uint256) :
    Except InitStop (MatchState sha256) :=
  match shorttxids.lookup (cmpctblock.getShortID txHash.1) with
  | none => .ok st
  | some pos =>
    match st.haveTxn[pos.toNat]?, st.txnAvailable[pos.toNat]? with
    | some false, _ =>
      match pool.mapTx.lookup txHash.2 with
      | none => .error .danglingIterator
      | some e => fillPosition st pos.toNat (some e.tx)
    | some true, some (some _) => .ok (resetPosition st pos.toNat)
    | some true, some none => .ok st
    | _, _ => .error .outOfRange

/-- The loop over `extra_txn` in `InitData`. -/
def matchExtra (st : MatchState sha256) (extra : ExtraTxn sha256) : Except InitStop (MatchState sha256) :=
  match shorttxids.lookup (cmpctblock.getShortID extra.1) with
  | none => .ok st
  | some pos =>
    match st.haveTxn[pos.toNat]?, st.txnAvailable[pos.toNat]? with
    | some false, _ => fillPosition st pos.toNat extra.2
    | some true, some (some available) =>
      match extra.2 with
      | none => .error .nullDereference
      | some tx =>
        if available.witnessHash ≠ tx.witnessHash then .ok (resetPosition st pos.toNat) else .ok st
    | some true, some none => .ok st
    | _, _ => .error .outOfRange

def scan {α : Type} (step : MatchState sha256 → α → Except InitStop (MatchState sha256)) :
    List α → MatchState sha256 → Except InitStop (MatchState sha256)
  | [], st => .ok st
  | a :: rest, st => do
    let st ← step st a
    if st.mempoolCount = shorttxids.keys.card then .ok st else scan step rest st

end Scan

/-- The first part of `InitData`: the transactions of the message at their places. -/
def initPrefilled (cmpctblock : CBlockHeaderAndShortTxIDs sha256) :
    Except InitStop (List (Option (CTransaction sha256))) :=
  if cmpctblock.header.isNull ∨ (cmpctblock.shorttxids.isEmpty ∧ cmpctblock.prefilledtxn.isEmpty) then
    .error (.returned .READ_STATUS_INVALID)
  else if MAX_BLOCK_WEIGHT / MIN_SERIALIZABLE_TRANSACTION_WEIGHT <
      cmpctblock.shorttxids.length + cmpctblock.prefilledtxn.length then
    .error (.returned .READ_STATUS_INVALID)
  else placePrefilled cmpctblock.shorttxids.length 0 (-1) cmpctblock.prefilledtxn
    (List.replicate cmpctblock.blockTxCount none)

def initShortIDs (bucket : ℕ → UInt64 → ℕ) (cmpctblock : CBlockHeaderAndShortTxIDs sha256)
    (txnAvailable : List (Option (CTransaction sha256))) : Except InitStop ShortIDMap := do
  let shorttxids ← mapShortIDs bucket cmpctblock.shorttxids.length txnAvailable 0 0 cmpctblock.shorttxids ∅
  if shorttxids.keys.card ≠ cmpctblock.shorttxids.length then .error (.returned .READ_STATUS_FAILED)
  else .ok shorttxids

def initScan (pool : CTxMemPool sha256) (cmpctblock : CBlockHeaderAndShortTxIDs sha256)
    (extraTxn : List (ExtraTxn sha256)) (txnAvailable : List (Option (CTransaction sha256)))
    (shorttxids : ShortIDMap) : Except InitStop (MatchState sha256) := do
  let st ← scan shorttxids (matchMempool cmpctblock shorttxids pool) pool.vTxHashes
    ⟨txnAvailable, List.replicate txnAvailable.length false, 0⟩
  scan shorttxids (matchExtra cmpctblock shorttxids) extraTxn st

/-- `InitData` of a new object; `.ok` stands for `READ_STATUS_OK`. -/
def initData (bucket : ℕ → UInt64 → ℕ) (pool : CTxMemPool sha256) (cmpctblock : CBlockHeaderAndShortTxIDs sha256)
    (extraTxn : List (ExtraTxn sha256)) : Except InitStop (PartiallyDownloadedBlock sha256) := do
  let txnAvailable ← initPrefilled cmpctblock
  let shorttxids ← initShortIDs bucket cmpctblock txnAvailable
  let st ← initScan pool cmpctblock extraTxn txnAvailable shorttxids
  return ⟨st.txnAvailable, cmpctblock.prefilledtxn.length, st.mempoolCount, cmpctblock.header⟩

/-- The loop of `FillBlock`: the transactions and what is left of the missing ones, `none` if there
are too few. -/
def fillTransactions : List (Option (CTransaction sha256)) → List (CTransaction sha256) →
    Option (List (CTransaction sha256) × List (CTransaction sha256))
  | [], vtxMissing => some ([], vtxMissing)
  | none :: _, [] => none
  | none :: txnAvailable, tx :: vtxMissing =>
    (fillTransactions txnAvailable vtxMissing).map (fun r => (tx :: r.1, r.2))
  | some tx :: txnAvailable, vtxMissing =>
    (fillTransactions txnAvailable vtxMissing).map (fun r => (tx :: r.1, r.2))

/-- `FillBlock`, with the block where it is filled; `block = header` clears `fChecked`. -/
def fillBlock (params : ConsensusParams) (b : PartiallyDownloadedBlock sha256)
    (vtxMissing : List (CTransaction sha256)) : ReadStatus × Option (CBlock sha256) :=
  match fillTransactions b.txnAvailable vtxMissing with
  | none => (.READ_STATUS_INVALID, none)
  | some (_, _ :: _) => (.READ_STATUS_INVALID, none)
  | some (vtx, []) =>
    match checkBlock ⟨b.header, vtx, false⟩ params true true with
    | .error r => (if r.corruptionPossible then .READ_STATUS_FAILED else .READ_STATUS_CHECKBLOCK_FAILED, none)
    | .ok block => (.READ_STATUS_OK, some block)

end PartiallyDownloadedBlock

end MutableBitcoin
