import MutableBitcoin.AcceptToMemoryPool

/-!
# The selection of transactions for a block

`BlockAssembler` of `miner.h` and `miner.cpp`. The modified set lists its entries by their iterators.
-/

namespace MutableBitcoin
open Lib

def MAX_BLOCK_SERIALIZED_SIZE : ℕ := 4000000

/-- `CTxMemPoolModifiedEntry`; the key that it is stored under stands for `iter`. -/
structure CTxMemPoolModifiedEntry where
  nSizeWithAncestors : ℤ
  nModFeesWithAncestors : ℤ
  nSigOpCostWithAncestors : ℤ
deriving DecidableEq

/-- `indexed_modified_transaction_set`. -/
abbrev ModifiedSet := Finmap (fun _ : Uint256 => CTxMemPoolModifiedEntry)

/-- The orders by `ancestor_score`: `mapTx` from the first entry on, `begin()` of a modified set, and
`CompareModifiedEntry`. -/
structure AncestorScore {sha256 : Bytes → Uint256} (pool : CTxMemPool sha256) where
  mapTx : List Uint256
  mem_mapTx : ∀ it, it ∈ mapTx ↔ it ∈ pool.mapTx
  nodup_mapTx : mapTx.Nodup
  first : ModifiedSet → Option Uint256
  mem_of_first : ∀ m it, first m = some it → it ∈ m
  empty_of_first : ∀ m, first m = none → m = ∅
  compareModifiedEntry : Uint256 × CTxMemPoolModifiedEntry → Uint256 × CTxMemPoolModifiedEntry → Bool

namespace BlockAssembler

/-- `BlockAssembler::Options`. -/
structure Options where
  nBlockMaxWeight : ℕ
  nBlockMaxSize : ℕ
  blockMinFeeRate : CFeeRate

/-- The options of the assembler and what it reads of the tip. -/
structure Settings where
  fIncludeWitness : Bool
  nBlockMaxWeight : ℕ
  nBlockMaxSize : ℕ
  fNeedSizeAccounting : Bool
  blockMinFeeRate : CFeeRate
  nHeight : ℕ
  nLockTimeCutoff : ℤ

/-- The constructor, with what `CreateNewBlock` sets. -/
def Settings.make (options : Options) (fIncludeWitness : Bool) (nHeight : ℕ) (nLockTimeCutoff : ℤ) : Settings :=
  let nBlockMaxSize := max 1000 (min (MAX_BLOCK_SERIALIZED_SIZE - 1000) options.nBlockMaxSize)
  { fIncludeWitness := fIncludeWitness
    nBlockMaxWeight := max 4000 (min (MAX_BLOCK_WEIGHT - 4000) options.nBlockMaxWeight)
    nBlockMaxSize := nBlockMaxSize
    fNeedSizeAccounting := decide (nBlockMaxSize < MAX_BLOCK_SERIALIZED_SIZE - 1000)
    blockMinFeeRate := options.blockMinFeeRate
    nHeight := nHeight
    nLockTimeCutoff := nLockTimeCutoff }

/-- The block so far, with its totals. -/
structure Template (sha256 : Bytes → Uint256) where
  vtx : List (CTransaction sha256)
  vTxFees : List ℤ
  vTxSigOpsCost : List ℕ
  nBlockWeight : ℕ
  nBlockSize : ℕ
  nBlockTx : ℕ
  nBlockSigOpsCost : ℕ
  nFees : ℤ
  inBlock : SetEntries

variable {sha256 : Bytes → Uint256}

def resetBlock : Template sha256 :=
  { vtx := [], vTxFees := [], vTxSigOpsCost := [], nBlockWeight := 4000, nBlockSize := 1000, nBlockTx := 0,
    nBlockSigOpsCost := 400, nFees := 0, inBlock := ∅ }

section Packages

variable (pool : CTxMemPool sha256) (settings : Settings) (block : Template sha256)

def onlyUnconfirmed (testSet : SetEntries) : SetEntries := testSet.filter (· ∉ block.inBlock)

def testPackage (packageSize packageSigOpsCost : ℤ) : Bool :=
  if settings.nBlockMaxWeight ≤ block.nBlockWeight + WITNESS_SCALE_FACTOR * packageSize then false
  else if MAX_BLOCK_SIGOPS_COST ≤ block.nBlockSigOpsCost + packageSigOpsCost then false
  else true

/-- The loop of `TestPackageTransactions`, on `nPotentialBlockSize`. -/
def testTransactionsLoop : List Uint256 → ℕ → Bool
  | [], _ => true
  | it :: rest, nPotentialBlockSize =>
    match pool.mapTx.lookup it with
    | none => testTransactionsLoop rest nPotentialBlockSize
    | some e =>
      if !isFinalTx e.tx.toCMutableTransaction settings.nHeight settings.nLockTimeCutoff then false
      else if !settings.fIncludeWitness && e.tx.hasWitness then false
      else if settings.fNeedSizeAccounting then
        let nTxSize := e.tx.getSerializeSize networkStream
        if settings.nBlockMaxSize ≤ nPotentialBlockSize + nTxSize then false
        else testTransactionsLoop rest (nPotentialBlockSize + nTxSize)
      else testTransactionsLoop rest nPotentialBlockSize

def testPackageTransactions (package : SetEntries) : Bool :=
  testTransactionsLoop pool settings package.inOrder block.nBlockSize

/-- `BlockAssembler::AddToBlock`. -/
def addToBlock (iter : Uint256) : Template sha256 :=
  match pool.mapTx.lookup iter with
  | none => block
  | some e =>
    { vtx := block.vtx ++ [e.tx]
      vTxFees := block.vTxFees ++ [e.nFee]
      vTxSigOpsCost := block.vTxSigOpsCost ++ [e.sigOpCost]
      nBlockWeight := block.nBlockWeight + getTransactionWeight e.tx.toCMutableTransaction
      nBlockSize := if settings.fNeedSizeAccounting then block.nBlockSize + e.tx.getSerializeSize networkStream
        else block.nBlockSize
      nBlockTx := block.nBlockTx + 1
      nBlockSigOpsCost := block.nBlockSigOpsCost + e.sigOpCost
      nFees := block.nFees + e.nFee
      inBlock := insert iter block.inBlock }

/-- `CompareTxIterByAncestorCount`, or equal. -/
def compareByAncestorCount (a b : Uint256) : Prop :=
  pool.valueAt (·.nCountWithAncestors) a < pool.valueAt (·.nCountWithAncestors) b ∨
    (pool.valueAt (·.nCountWithAncestors) a = pool.valueAt (·.nCountWithAncestors) b ∧ a ≤ b)

instance : DecidableRel (compareByAncestorCount pool) := fun _ _ => inferInstanceAs (Decidable (_ ∨ _))

def sortForBlock (package : SetEntries) : List Uint256 :=
  package.inOrder.insertionSort (compareByAncestorCount pool)

end Packages

section Modified

variable (pool : CTxMemPool sha256)

/-- The constructor of `CTxMemPoolModifiedEntry`. -/
def modifiedEntry (entry : Uint256) : CTxMemPoolModifiedEntry :=
  ⟨pool.valueAt (·.nSizeWithAncestors) entry, pool.valueAt (·.nModFeesWithAncestors) entry,
    pool.valueAt (·.nSigOpCostWithAncestors) entry⟩

/-- `update_for_parent_inclusion`. -/
def updateForParentInclusion (iter : Uint256) (e : CTxMemPoolModifiedEntry) : CTxMemPoolModifiedEntry :=
  { nModFeesWithAncestors := e.nModFeesWithAncestors - pool.valueAt (·.nFee) iter
    nSizeWithAncestors := e.nSizeWithAncestors - pool.valueAt (·.getTxSize) iter
    nSigOpCostWithAncestors := e.nSigOpCostWithAncestors - pool.valueAt (·.sigOpCost) iter }

/-- A descendant of an added entry in `UpdatePackagesForAdded`. -/
def updateDescendant (it : Uint256) (mapModifiedTx : ModifiedSet) (desc : Uint256) : ModifiedSet :=
  match mapModifiedTx.lookup desc with
  | none =>
    let modEntry := modifiedEntry pool desc
    mapModifiedTx.insert desc
      { nSizeWithAncestors := modEntry.nSizeWithAncestors - pool.valueAt (·.getTxSize) it
        nModFeesWithAncestors := modEntry.nModFeesWithAncestors - pool.valueAt (·.getModifiedFee) it
        nSigOpCostWithAncestors := modEntry.nSigOpCostWithAncestors - pool.valueAt (·.sigOpCost) it }
  | some mit => mapModifiedTx.insert desc (updateForParentInclusion pool it mit)

def descendantsToUpdate (alreadyAdded : SetEntries) (it : Uint256) : List Uint256 :=
  (pool.calculateDescendants it ∅).inOrder.filter (· ∉ alreadyAdded)

/-- `UpdatePackagesForAdded`: the modified set, and `nDescendantsUpdated`. -/
def updatePackagesForAdded (alreadyAdded : SetEntries) (mapModifiedTx : ModifiedSet) : ModifiedSet × ℕ :=
  (alreadyAdded.inOrder.foldl
      (fun m it => (descendantsToUpdate pool alreadyAdded it).foldl (updateDescendant pool it) m) mapModifiedTx,
    (alreadyAdded.inOrder.map fun it => (descendantsToUpdate pool alreadyAdded it).length).sum)

end Modified

/-- The local variables of `addPackageTxs` besides the block; `mi` is the rest of the index from there on. -/
structure Selection (sha256 : Bytes → Uint256) where
  block : Template sha256
  mapModifiedTx : ModifiedSet
  failedTx : SetEntries
  mi : List Uint256
  nConsecutiveFailed : ℕ
  nPackagesSelected : ℕ
  nDescendantsUpdated : ℕ

/-- The package that an iteration looks at. -/
structure Candidate where
  iter : Uint256
  fUsingModified : Bool
  packageSize : ℤ
  packageFees : ℤ
  packageSigOpsCost : ℤ
deriving DecidableEq

/-- The state behind an iteration. -/
inductive LoopResult (sha256 : Bytes → Uint256) where
  | running (s : Selection sha256)
  | finished (s : Selection sha256)
  | assertionFailed

def MAX_CONSECUTIVE_FAILURES : ℕ := 1000

section Loop

variable (pool : CTxMemPool sha256) (settings : Settings) (index : AncestorScore pool) (s : Selection sha256)

def skipMapTxEntry (it : Uint256) : Bool := it ∈ s.mapModifiedTx || it ∈ s.block.inBlock || it ∈ s.failedTx

def candidateOf (iter : Uint256) (fUsingModified : Bool) (totals : CTxMemPoolModifiedEntry) : Candidate :=
  ⟨iter, fUsingModified, totals.nSizeWithAncestors, totals.nModFeesWithAncestors, totals.nSigOpCostWithAncestors⟩

/-- The best entry of the modified set, `modit`. -/
def bestModified : Option (Uint256 × CTxMemPoolModifiedEntry) :=
  (index.first s.mapModifiedTx).bind fun it => (s.mapModifiedTx.lookup it).map fun modit => (it, modit)

/-- Which entry to evaluate: the next one of `mapTx`, or the best one that is modified. -/
def chooseEntry : Option (Candidate × Selection sha256) :=
  match s.mi with
  | [] => (bestModified pool index s).map fun modit => (candidateOf modit.1 true modit.2, s)
  | it :: rest =>
    match bestModified pool index s with
    | none => some (candidateOf it false (modifiedEntry pool it), { s with mi := rest })
    | some modit =>
      if index.compareModifiedEntry modit (it, modifiedEntry pool it) then some (candidateOf modit.1 true modit.2, s)
      else some (candidateOf it false (modifiedEntry pool it), { s with mi := rest })

def dropFailed (c : Candidate) : Selection sha256 :=
  if c.fUsingModified then
    { s with mapModifiedTx := s.mapModifiedTx.erase c.iter, failedTx := insert c.iter s.failedTx }
  else s

def packageOf (iter : Uint256) : SetEntries :=
  insert iter (onlyUnconfirmed s.block (pool.linkedAncestors iter))

/-- Adds a sorted package and updates its descendants. -/
def addPackage (package : SetEntries) : Selection sha256 :=
  let sortedEntries := sortForBlock pool package
  let updated := updatePackagesForAdded pool package (sortedEntries.foldl (fun m it => m.erase it) s.mapModifiedTx)
  { block := sortedEntries.foldl (addToBlock pool settings) s.block
    mapModifiedTx := updated.1
    failedTx := s.failedTx
    mi := s.mi
    nConsecutiveFailed := 0
    nPackagesSelected := s.nPackagesSelected + 1
    nDescendantsUpdated := s.nDescendantsUpdated + updated.2 }

/-- What one pass of `addPackageTxs` does with its candidate. -/
def evaluate (c : Candidate) : LoopResult sha256 :=
  if c.iter ∈ s.block.inBlock then .assertionFailed
  -- everything else has a lower fee rate
  else if c.packageFees < settings.blockMinFeeRate.getFee c.packageSize then .finished s
  else if !testPackage settings s.block c.packageSize c.packageSigOpsCost then
    let failed := { dropFailed s c with nConsecutiveFailed := s.nConsecutiveFailed + 1 }
    if MAX_CONSECUTIVE_FAILURES < failed.nConsecutiveFailed ∧
        settings.nBlockMaxWeight - 4000 < s.block.nBlockWeight then .finished failed
    else .running failed
  else if !testPackageTransactions pool settings s.block (packageOf pool s c.iter) then .running (dropFailed s c)
  else .running (addPackage pool settings s (packageOf pool s c.iter))

/-- The next entry of `mapTx` is stale. -/
def staleNext : Bool :=
  match s.mi with
  | [] => false
  | it :: _ => skipMapTxEntry s it

/-- One iteration of the loop of `addPackageTxs`. -/
def addPackageStep : LoopResult sha256 :=
  if staleNext s then .running { s with mi := s.mi.tail }
  else
    match chooseEntry pool index s with
    | none => .finished s
    | some (c, s) => evaluate pool settings s c

/-- What `addPackageTxs` starts the loop with. -/
def selectionStart (block : Template sha256) : Selection sha256 :=
  { block := block
    mapModifiedTx := (updatePackagesForAdded pool block.inBlock ∅).1
    failedTx := ∅
    mi := index.mapTx
    nConsecutiveFailed := 0
    nPackagesSelected := 0
    nDescendantsUpdated := 0 }

/-- `addPackageTxs` for at most so many iterations. -/
def addPackageTxs : ℕ → Selection sha256 → LoopResult sha256
  | 0, s => .running s
  | fuel + 1, s =>
    match addPackageStep pool settings index s with
    | .running s => addPackageTxs fuel s
    | r => r

end Loop

end BlockAssembler

end MutableBitcoin
