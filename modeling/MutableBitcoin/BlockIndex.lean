import MutableBitcoin.CheckBlock
import MutableBitcoin.Lib.Lineage

/-!
# The block index

`CBlockIndex` and `CChain` of `chain.h` and `chain.cpp`, and from `validation.cpp` the sets that choose the active
chain, `AddToBlockIndex`, `ReceivedBlockTransactions`, `AcceptBlockHeader` and `AcceptBlock`. A pointer to an entry
is the hash of its block.
-/

namespace MutableBitcoin
open Lib

local instance neZero_validity : NeZero 8 := ⟨by decide⟩

def BLOCK_VALID_TREE : Fin 8 := 2
def BLOCK_VALID_TRANSACTIONS : Fin 8 := 3
def BLOCK_VALID_SCRIPTS : Fin 8 := 5

/-- The bits of `nStatus`. -/
structure BlockStatus where
  validity : Fin 8
  haveData : Bool
  haveUndo : Bool
  failedValid : Bool
  failedChild : Bool
  optWitness : Bool
deriving DecidableEq

namespace BlockStatus

/-- `nStatus & BLOCK_FAILED_MASK`. -/
def failed (st : BlockStatus) : Bool := st.failedValid || st.failedChild

def isValid (st : BlockStatus) (nUpTo : Fin 8) : Bool := !st.failed && nUpTo ≤ st.validity

def raiseValidity (st : BlockStatus) (nUpTo : Fin 8) : BlockStatus :=
  if !st.failed && st.validity < nUpTo then { st with validity := nUpTo } else st

end BlockStatus

/-- An entry of the index; a parent is named by its hash. -/
structure CBlockIndex where
  pprev : Option Uint256
  nHeight : ℕ
  nFile : ℕ
  nDataPos : ℕ
  nUndoPos : ℕ
  nChainWork : ℕ
  nTx : ℕ
  nChainTx : ℕ
  nStatus : BlockStatus
  nVersion : Int32
  hashMerkleRoot : Uint256
  nTime : UInt32
  nBits : UInt32
  nNonce : UInt32
  hashUChainVersion : Uint256
  nSequenceId : ℤ
  nTimeMax : UInt32

namespace CBlockIndex

/-- `SetNull`. -/
def null : CBlockIndex :=
  ⟨none, 0, 0, 0, 0, 0, 0, 0, ⟨0, false, false, false, false, false⟩, 0, BaseBlob.null 32, 0, 0, 0,
    BaseBlob.null 32, 0, 0⟩

/-- `CBlockIndex(const CBlockHeader&)`. -/
def ofHeader (block : CBlockHeader) : CBlockIndex :=
  { null with
    nVersion := block.nVersion
    hashMerkleRoot := block.hashMerkleRoot
    nTime := block.nTime
    nBits := block.nBits
    nNonce := block.nNonce
    hashUChainVersion := block.hashUChainVersion }

end CBlockIndex

def getBlockProof (nBits : UInt32) : ℕ :=
  let (bnTarget, fNegative, fOverflow) := setCompact nBits.toNat
  if fNegative || fOverflow || bnTarget = 0 then 0 else (2 ^ 256 - 1 - bnTarget) / (bnTarget + 1) + 1

/-- What `ConnectBlock` says of a block. -/
inductive BlockVerdict where
  | valid
  | invalid
  /-- `CorruptionPossible`. -/
  | corrupted
deriving DecidableEq

/-- What the index takes from the rest of the node: the parameters, the addresses of the entries, the
verdicts of `ConnectBlock` and the places where it writes undo data. -/
structure ChainContext where
  params : ConsensusParams
  hashGenesisBlock : Uint256
  address : Uint256 → ℕ
  address_injective : Function.Injective address
  connectBlock : Uint256 → BlockVerdict
  undoPos : Uint256 → ℕ

/-- The index, the active chain and the sets that choose it. -/
structure ChainState where
  /-- The hashes of the entries. -/
  mapBlockIndex : List Uint256
  entry : Uint256 → CBlockIndex
  /-- From the genesis block on. -/
  chainActive : List Uint256
  setBlockIndexCandidates : List Uint256
  mapBlocksUnlinked : List (Option Uint256 × Uint256)
  nBlockSequenceId : ℤ
  nBlockReverseSequenceId : ℤ
  nLastPreciousChainwork : ℕ

/-- Where a call ends the process. -/
inductive ChainFailure where
  | assertion
  | nullDereference
  | endlessLoop
deriving DecidableEq

namespace ChainState

section Access

variable (s : ChainState)

def modifyEntry (b : Uint256) (f : CBlockIndex → CBlockIndex) : ChainState :=
  { s with entry := Function.update s.entry b (f (s.entry b)) }

def modifyStatus (b : Uint256) (f : BlockStatus → BlockStatus) : ChainState :=
  s.modifyEntry b (fun e => { e with nStatus := f e.nStatus })

def insertCandidate (b : Uint256) : ChainState :=
  { s with setBlockIndexCandidates := s.setBlockIndexCandidates.insert b }

def eraseCandidate (b : Uint256) : ChainState :=
  { s with setBlockIndexCandidates := s.setBlockIndexCandidates.filter (· ≠ b) }

def lineage (b : Uint256) : List Uint256 :=
  Lib.lineage (fun a => (s.entry a).pprev) (fun a => (s.entry a).nHeight) b

/-- `chainActive.Tip()`. -/
def tip : Option Uint256 := s.chainActive.getLast?

/-- `chainActive.Contains`. -/
def contains (b : Uint256) : Bool := s.chainActive[(s.entry b).nHeight]? = some b

/-- `chainActive.FindFork`. -/
def findFork (b : Uint256) : Option Uint256 := (s.lineage b).find? s.contains

end Access

section Comparator

variable (ctx : ChainContext) (s : ChainState)

/-- `CBlockIndexWorkComparator`: the first block is worse than the second. -/
def workComparator (pa pb : Uint256) : Bool :=
  if (s.entry pa).nChainWork > (s.entry pb).nChainWork then false
  else if (s.entry pa).nChainWork < (s.entry pb).nChainWork then true
  else if (s.entry pa).nSequenceId < (s.entry pb).nSequenceId then false
  else if (s.entry pa).nSequenceId > (s.entry pb).nSequenceId then true
  else if ctx.address pa < ctx.address pb then false
  else if ctx.address pa > ctx.address pb then true
  else false

def worseThanTip (b : Uint256) : Bool :=
  match s.tip with
  | none => false
  | some tip => workComparator ctx s b tip

end Comparator

section Arrival

variable (ctx : ChainContext)

/-- `AddToBlockIndex`. -/
def addToBlockIndex (s : ChainState) (hash : Uint256) (block : CBlockHeader) : ChainState :=
  if hash ∈ s.mapBlockIndex then s
  else
    let new := CBlockIndex.ofHeader block
    let new :=
      if block.hashPrevBlock ∈ s.mapBlockIndex then
        let prev := s.entry block.hashPrevBlock
        { new with
          pprev := some block.hashPrevBlock
          nHeight := prev.nHeight + 1
          nTimeMax := max prev.nTimeMax new.nTime
          nChainWork := prev.nChainWork + getBlockProof new.nBits }
      else { new with nTimeMax := new.nTime, nChainWork := getBlockProof new.nBits }
    { s with
      mapBlockIndex := hash :: s.mapBlockIndex
      entry := Function.update s.entry hash
        { new with nStatus := new.nStatus.raiseValidity BLOCK_VALID_TREE } }

/-- A block all of whose ancestors have transactions: an iteration of the loop of
`ReceivedBlockTransactions` up to the next blocks. -/
def linkBlock (s : ChainState) (pindex : Uint256) : ChainState :=
  let nPrevTx := ((s.entry pindex).pprev.map (fun p => (s.entry p).nChainTx)).getD 0
  let s := s.modifyEntry pindex
    (fun e => { e with nChainTx := nPrevTx + e.nTx, nSequenceId := s.nBlockSequenceId })
  let s := { s with nBlockSequenceId := s.nBlockSequenceId + 1 }
  if s.worseThanTip ctx pindex then s else s.insertCandidate pindex

/-- The blocks that wait for `pindex`. -/
def unlinkedBehind (s : ChainState) (pindex : Uint256) : List Uint256 :=
  (s.mapBlocksUnlinked.filter (fun q => q.1 = some pindex)).map (·.2)

/-- The loop of `ReceivedBlockTransactions` over its queue, within `fuel` iterations. -/
def linkBlocks : ℕ → List Uint256 → ChainState → Except ChainFailure ChainState
  | _, [], s => .ok s
  | 0, _ :: _, _ => .error .endlessLoop
  | fuel + 1, pindex :: queue, s =>
    let s := linkBlock ctx s pindex
    linkBlocks fuel (queue ++ s.unlinkedBehind pindex)
      { s with mapBlocksUnlinked := s.mapBlocksUnlinked.filter (fun q => q.1 ≠ some pindex) }

/-- What `ReceivedBlockTransactions` writes into the entry. -/
def withTransactions (nTx nFile nPos : ℕ) (fWitness : Bool) (e : CBlockIndex) : CBlockIndex :=
  { e with
    nTx := nTx
    nChainTx := 0
    nFile := nFile
    nDataPos := nPos
    nUndoPos := 0
    nStatus := { e.nStatus with
      haveData := true
      optWitness := e.nStatus.optWitness || fWitness }.raiseValidity BLOCK_VALID_TRANSACTIONS }

/-- `ReceivedBlockTransactions`. Each pair that waits is taken once. -/
def receivedBlockTransactions (s : ChainState) (nTx : ℕ) (pindexNew : Uint256) (nFile nPos : ℕ)
    (fWitness : Bool) : Except ChainFailure ChainState :=
  let s := s.modifyEntry pindexNew (withTransactions nTx nFile nPos fWitness)
  match (s.entry pindexNew).pprev with
  | none => linkBlocks ctx (s.mapBlocksUnlinked.length + 1) [pindexNew] s
  | some pprev =>
    if (s.entry pprev).nChainTx ≠ 0 then linkBlocks ctx (s.mapBlocksUnlinked.length + 1) [pindexNew] s
    else if (s.entry pprev).nStatus.isValid BLOCK_VALID_TREE then
      .ok { s with mapBlocksUnlinked := s.mapBlocksUnlinked ++ [(some pprev, pindexNew)] }
    else .ok s

section Received
variable {ctx : ChainContext} {s s₁ : ChainState} {nTx nFile nPos : ℕ} {b : Uint256} {fWitness : Bool}
  (hs : s.modifyEntry b (withTransactions nTx nFile nPos fWitness) = s₁)
include hs

lemma receivedBlockTransactions_root (h : (s₁.entry b).pprev = none) :
    receivedBlockTransactions ctx s nTx b nFile nPos fWitness =
      linkBlocks ctx (s₁.mapBlocksUnlinked.length + 1) [b] s₁ := by
  simp only [receivedBlockTransactions, hs, h]

lemma receivedBlockTransactions_some {p : Uint256} (h : (s₁.entry b).pprev = some p) :
    receivedBlockTransactions ctx s nTx b nFile nPos fWitness =
      if (s₁.entry p).nChainTx ≠ 0 then linkBlocks ctx (s₁.mapBlocksUnlinked.length + 1) [b] s₁
      else if (s₁.entry p).nStatus.isValid BLOCK_VALID_TREE then
        .ok { s₁ with mapBlocksUnlinked := s₁.mapBlocksUnlinked ++ [(some p, b)] }
      else .ok s₁ := by
  simp only [receivedBlockTransactions, hs, h]

end Received

variable {sha256 : Bytes → Uint256}

/-- `AcceptBlockHeader` with the outcome of `ContextualCheckBlockHeader`. A refused header leaves the
state as it is. -/
def acceptBlockHeader (sha256 : Bytes → Uint256) (s : ChainState) (block : CBlockHeader)
    (fContextual : Bool) : Bool × ChainState :=
  let hash := block.getHash sha256
  if hash = ctx.hashGenesisBlock then (true, s.addToBlockIndex hash block)
  else if hash ∈ s.mapBlockIndex then (!(s.entry hash).nStatus.failed, s)
  else if !(checkBlockHeader sha256 block ctx.params true).isOk then (false, s)
  else if block.hashPrevBlock ∉ s.mapBlockIndex then (false, s)
  else if (s.entry block.hashPrevBlock).nStatus.failed then (false, s)
  else if !fContextual then (false, s)
  else (true, s.addToBlockIndex hash block)

def MIN_BLOCKS_TO_KEEP : ℕ := 288

/-- What `AcceptBlock` is called with besides the block, and the outcomes of the contextual checks. -/
structure AcceptArgs where
  fRequested : Bool
  fContextualHeader : Bool
  contextualCheckBlock : Except Reject Unit
  nFile : ℕ
  nPos : ℕ
  fWitness : Bool

def wanted (s : ChainState) (pindex : Uint256) (fRequested : Bool) : Bool :=
  let e := s.entry pindex
  let fHasMoreWork := (s.tip.map (fun t => decide ((s.entry t).nChainWork < e.nChainWork))).getD true
  let fTooFarAhead : Bool := (s.chainActive.length : ℤ) - 1 + MIN_BLOCKS_TO_KEEP < e.nHeight
  !e.nStatus.haveData && (fRequested || (e.nTx = 0 && fHasMoreWork && !fTooFarAhead))

/-- `AcceptBlock`, which returns the state. -/
def acceptBlock (s : ChainState) (block : CBlock sha256) (args : AcceptArgs) :
    Except ChainFailure ChainState :=
  let pindex := block.toCBlockHeader.getHash sha256
  let r := acceptBlockHeader ctx sha256 s block.toCBlockHeader args.fContextualHeader
  if !r.1 then .ok r.2
  else if !r.2.wanted pindex args.fRequested then .ok r.2
  else
    match checkBlock block ctx.params true true >>= fun _ => args.contextualCheckBlock with
    | .error reject =>
      if reject.corruptionPossible then .ok r.2
      else .ok (r.2.modifyStatus pindex (fun st => { st with failedValid := true }))
    | .ok _ => receivedBlockTransactions ctx r.2 block.vtx.length pindex args.nFile args.nPos args.fWitness

end Arrival

end ChainState

end MutableBitcoin
