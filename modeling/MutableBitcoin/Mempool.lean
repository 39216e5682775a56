import MutableBitcoin.CheckBlock
import MutableBitcoin.Lib.Worklist
import Mathlib.Data.Finmap
import Mathlib.Data.Finset.Sort

/-!
# The memory pool

`CTxMemPool` of `txmempool.h` and `txmempool.cpp`. An iterator into `mapTx` is modelled by the id of its entry.
-/

namespace MutableBitcoin
open Lib Finset Option

namespace BaseBlob

variable {width : ℕ}

def rank (b : BaseBlob width) : ℕ := leValue b.data.reverse

lemma rank_injective : Function.Injective (rank : BaseBlob width → ℕ) := by
  intro a b h
  have hrev := leValue_injOn (by rw [List.length_reverse, List.length_reverse, a.length_data, b.length_data]) h
  exact ext (List.reverse_injective hrev)

/-- `Compare`: the first different byte decides. -/
instance instLinearOrder : LinearOrder (BaseBlob width) where
  __ := PartialOrder.lift rank rank_injective
  le_total a b := le_total a.rank b.rank
  toDecidableLE := fun a b => inferInstanceAs (Decidable (a.rank ≤ b.rank))
  toDecidableEq := instDecidableEqBaseBlob

end BaseBlob

/-- `setEntries`: a set of iterators, in the order of the ids. -/
abbrev SetEntries := Finset Uint256

namespace SetEntries

def inOrder (s : SetEntries) : List Uint256 := s.sort (· ≤ ·)

/-- `*s.begin()`. -/
def first (s : SetEntries) : Option Uint256 := s.inOrder.head?

lemma mem_inOrder {s : SetEntries} {id : Uint256} : id ∈ s.inOrder ↔ id ∈ s := mem_sort _

lemma nodup_inOrder (s : SetEntries) : s.inOrder.Nodup := sort_nodup _ _

lemma takes_first : Takes first where
  mem h := mem_inOrder.mp (List.mem_of_mem_head? h)
  empty h := by
    have hnil := List.head?_eq_none_iff.mp h
    ext id
    rw [← mem_inOrder, hnil]
    simp

end SetEntries

def DEFAULT_BYTES_PER_SIGOP : ℕ := 20

def getTransactionWeight (tx : CMutableTransaction) : ℕ :=
  tx.getSerializeSize strippedStream * (WITNESS_SCALE_FACTOR - 1) + tx.getSerializeSize networkStream

def getVirtualTransactionSize (nWeight nSigOpCost : ℕ) : ℕ :=
  (max nWeight (nSigOpCost * DEFAULT_BYTES_PER_SIGOP) + WITNESS_SCALE_FACTOR - 1) / WITNESS_SCALE_FACTOR

/-- `memusage::IncrementalDynamicUsage` of a `setEntries` with pointers of 8 bytes. -/
def setNodeUsage : ℤ := 64

/-- An entry with its counters. -/
structure CTxMemPoolEntry (sha256 : Bytes → Uint256) where
  tx : CTransaction sha256
  nFee : ℤ
  nUsageSize : ℕ
  nTime : ℤ
  sigOpCost : ℕ
  feeDelta : ℤ
  nCountWithDescendants : ℤ
  nSizeWithDescendants : ℤ
  nModFeesWithDescendants : ℤ
  nCountWithAncestors : ℤ
  nSizeWithAncestors : ℤ
  nModFeesWithAncestors : ℤ
  nSigOpCostWithAncestors : ℤ
  vTxHashesIdx : ℕ

namespace CTxMemPoolEntry

variable {sha256 : Bytes → Uint256}

def getTxSize (e : CTxMemPoolEntry sha256) : ℤ :=
  getVirtualTransactionSize (getTransactionWeight e.tx.toCMutableTransaction) e.sigOpCost

def getModifiedFee (e : CTxMemPoolEntry sha256) : ℤ := e.nFee + e.feeDelta

def make (tx : CTransaction sha256) (nFee nTime : ℤ) (sigOpsCost nUsageSize : ℕ) : CTxMemPoolEntry sha256 :=
  let nTxSize : ℤ := getVirtualTransactionSize (getTransactionWeight tx.toCMutableTransaction) sigOpsCost
  { tx := tx, nFee := nFee, nUsageSize := nUsageSize, nTime := nTime, sigOpCost := sigOpsCost, feeDelta := 0,
    nCountWithDescendants := 1, nSizeWithDescendants := nTxSize, nModFeesWithDescendants := nFee,
    nCountWithAncestors := 1, nSizeWithAncestors := nTxSize, nModFeesWithAncestors := nFee,
    nSigOpCostWithAncestors := sigOpsCost, vTxHashesIdx := 0 }

def updateFeeDelta (newFeeDelta : ℤ) (e : CTxMemPoolEntry sha256) : CTxMemPoolEntry sha256 :=
  { e with
    nModFeesWithDescendants := e.nModFeesWithDescendants + (newFeeDelta - e.feeDelta)
    nModFeesWithAncestors := e.nModFeesWithAncestors + (newFeeDelta - e.feeDelta)
    feeDelta := newFeeDelta }

/-- `UpdateDescendantState`. -/
def updateDescendantState (modifySize modifyFee modifyCount : ℤ) (e : CTxMemPoolEntry sha256) :
    Option (CTxMemPoolEntry sha256) :=
  if 0 < e.nSizeWithDescendants + modifySize ∧ 0 < e.nCountWithDescendants + modifyCount then
    some { e with
      nSizeWithDescendants := e.nSizeWithDescendants + modifySize
      nModFeesWithDescendants := e.nModFeesWithDescendants + modifyFee
      nCountWithDescendants := e.nCountWithDescendants + modifyCount }
  else none

/-- `UpdateAncestorState`. -/
def updateAncestorState (modifySize modifyFee modifyCount modifySigOps : ℤ) (e : CTxMemPoolEntry sha256) :
    Option (CTxMemPoolEntry sha256) :=
  if 0 < e.nSizeWithAncestors + modifySize ∧ 0 < e.nCountWithAncestors + modifyCount ∧
      0 ≤ e.nSigOpCostWithAncestors + modifySigOps then
    some { e with
      nSizeWithAncestors := e.nSizeWithAncestors + modifySize
      nModFeesWithAncestors := e.nModFeesWithAncestors + modifyFee
      nCountWithAncestors := e.nCountWithAncestors + modifyCount
      nSigOpCostWithAncestors := e.nSigOpCostWithAncestors + modifySigOps }
  else none

end CTxMemPoolEntry

/-- The parents and children of an entry in the pool. -/
structure TxLinks where
  parents : SetEntries
  children : SetEntries

/-- The pool; an iterator of `mapTx` is the id of its entry. -/
structure CTxMemPool (sha256 : Bytes → Uint256) where
  mapTx : Finmap (fun _ : Uint256 => CTxMemPoolEntry sha256)
  mapLinks : Finmap (fun _ : Uint256 => TxLinks)
  /-- The transaction that spends an output. -/
  mapNextTx : Finmap (fun _ : COutPoint => CTransaction sha256)
  mapDeltas : Finmap (fun _ : Uint256 => ℤ)
  /-- Witness hashes with the entries they belong to. -/
  vTxHashes : List (Uint256 × Uint256)
  totalTxSize : ℤ
  cachedInnerUsage : ℤ

namespace CTxMemPool

variable {sha256 : Bytes → Uint256}

def empty : CTxMemPool sha256 := ⟨∅, ∅, ∅, ∅, [], 0, 0⟩

section Access

variable (pool : CTxMemPool sha256)

def valueAt (f : CTxMemPoolEntry sha256 → ℤ) (it : Uint256) : ℤ :=
  ((pool.mapTx.lookup it).map f).getD 0

def linksAt (it : Uint256) : TxLinks := (pool.mapLinks.lookup it).getD ⟨∅, ∅⟩

def getMemPoolParents (it : Uint256) : SetEntries := (pool.linksAt it).parents

def getMemPoolChildren (it : Uint256) : SetEntries := (pool.linksAt it).children

/-- `mapTx.modify`. -/
def modify (it : Uint256) (f : CTxMemPoolEntry sha256 → Option (CTxMemPoolEntry sha256)) :
    Option (CTxMemPool sha256) :=
  match pool.mapTx.lookup it with
  | none => some pool
  | some e => (f e).map (fun e => { pool with mapTx := pool.mapTx.insert it e })

/-- `mapTx.modify` of every entry of a set. -/
def modifyAll (s : SetEntries) (f : CTxMemPoolEntry sha256 → Option (CTxMemPoolEntry sha256)) :
    Option (CTxMemPool sha256) :=
  s.inOrder.foldlM (fun pool it => pool.modify it f) pool

end Access

section Links

variable (pool : CTxMemPool sha256)

/-- `UpdateChild`. -/
def updateChild (entry child : Uint256) (add : Bool) : CTxMemPool sha256 :=
  let links := pool.linksAt entry
  if add then
    { pool with
      mapLinks := pool.mapLinks.insert entry { links with children := insert child links.children }
      cachedInnerUsage := pool.cachedInnerUsage + if child ∈ links.children then 0 else setNodeUsage }
  else
    { pool with
      mapLinks := pool.mapLinks.insert entry { links with children := links.children.erase child }
      cachedInnerUsage := pool.cachedInnerUsage - if child ∈ links.children then setNodeUsage else 0 }

/-- `UpdateParent`. -/
def updateParent (entry parent : Uint256) (add : Bool) : CTxMemPool sha256 :=
  let links := pool.linksAt entry
  if add then
    { pool with
      mapLinks := pool.mapLinks.insert entry { links with parents := insert parent links.parents }
      cachedInnerUsage := pool.cachedInnerUsage + if parent ∈ links.parents then 0 else setNodeUsage }
  else
    { pool with
      mapLinks := pool.mapLinks.insert entry { links with parents := links.parents.erase parent }
      cachedInnerUsage := pool.cachedInnerUsage - if parent ∈ links.parents then setNodeUsage else 0 }

end Links

section Ancestors

/-- The limits of `CalculateMemPoolAncestors`; `none` is `nNoLimit`, which no number exceeds. -/
structure ChainLimits where
  limitAncestorCount : Option ℕ
  limitAncestorSize : Option ℕ
  limitDescendantCount : Option ℕ
  limitDescendantSize : Option ℕ

def nNoLimit : ChainLimits := ⟨none, none, none, none⟩

def exceeds (n : ℤ) : Option ℕ → Bool
  | none => false
  | some limit => limit < n

/-- The errors of `CalculateMemPoolAncestors`. -/
inductive ChainError where
  | tooManyParents
  | descendantSize (tx : Uint256)
  | tooManyDescendants (tx : Uint256)
  | ancestorSize
  | tooManyAncestors
deriving DecidableEq

def limitText : Option ℕ → String
  | none => "18446744073709551615"
  | some limit => toString limit

/-- `errString`. -/
def ChainError.text (limits : ChainLimits) : ChainError → String
  | tooManyParents => "too many unconfirmed parents [limit: " ++ limitText limits.limitAncestorCount ++ "]"
  | descendantSize tx => "exceeds descendant size limit for tx " ++ String.ofList tx.getHex ++
      " [limit: " ++ limitText limits.limitDescendantSize ++ "]"
  | tooManyDescendants tx => "too many descendants for tx " ++ String.ofList tx.getHex ++
      " [limit: " ++ limitText limits.limitDescendantCount ++ "]"
  | ancestorSize => "exceeds ancestor size limit [limit: " ++ limitText limits.limitAncestorSize ++ "]"
  | tooManyAncestors => "too many unconfirmed ancestors [limit: " ++ limitText limits.limitAncestorCount ++ "]"

variable (pool : CTxMemPool sha256) (limits : ChainLimits)

/-- The parents of a transaction that are in `mapTx`. -/
def searchParents : List CTxIn → SetEntries → Except ChainError SetEntries
  | [], parentHashes => .ok parentHashes
  | txin :: vin, parentHashes =>
    if txin.prevout.hash ∈ pool.mapTx then
      let parentHashes := insert txin.prevout.hash parentHashes
      if exceeds (parentHashes.card + 1) limits.limitAncestorCount then .error .tooManyParents
      else searchParents vin parentHashes
    else searchParents vin parentHashes

/-- The parents of a staged entry, in `CalculateMemPoolAncestors`. -/
def stageParents (setAncestors : SetEntries) : List Uint256 → SetEntries → Except ChainError SetEntries
  | [], parentHashes => .ok parentHashes
  | phash :: rest, parentHashes =>
    let parentHashes := if phash ∈ setAncestors then parentHashes else insert phash parentHashes
    if exceeds (parentHashes.card + setAncestors.card + 1) limits.limitAncestorCount then
      .error .tooManyAncestors
    else stageParents setAncestors rest parentHashes

/-- The loop of `CalculateMemPoolAncestors` for an entry of size `nTxSize`. -/
def ancestorLoop (nTxSize : ℤ) : ℕ → SetEntries → SetEntries → ℤ → Except ChainError SetEntries
  | 0, _, setAncestors, _ => .ok setAncestors
  | fuel + 1, parentHashes, setAncestors, totalSizeWithAncestors =>
    match parentHashes.first with
    | none => .ok setAncestors
    | some stageit =>
      let setAncestors := insert stageit setAncestors
      let totalSizeWithAncestors := totalSizeWithAncestors + pool.valueAt (·.getTxSize) stageit
      if exceeds (pool.valueAt (·.nSizeWithDescendants) stageit + nTxSize) limits.limitDescendantSize then
        .error (.descendantSize stageit)
      else if exceeds (pool.valueAt (·.nCountWithDescendants) stageit + 1) limits.limitDescendantCount then
        .error (.tooManyDescendants stageit)
      else if exceeds totalSizeWithAncestors limits.limitAncestorSize then .error .ancestorSize
      else do
        let parentHashes ← stageParents limits setAncestors (pool.getMemPoolParents stageit).inOrder
          (parentHashes.erase stageit)
        ancestorLoop nTxSize fuel parentHashes setAncestors totalSizeWithAncestors

/-- `CalculateMemPoolAncestors` into an empty set. -/
def calculateMemPoolAncestors (entry : CTxMemPoolEntry sha256) (fSearchForParents : Bool) :
    Except ChainError SetEntries := do
  let parentHashes ← (if fSearchForParents then searchParents pool limits entry.tx.vin ∅
    else .ok (pool.getMemPoolParents entry.tx.hash))
  ancestorLoop pool limits entry.getTxSize pool.mapTx.keys.card parentHashes ∅ entry.getTxSize

def allAncestors (entry : CTxMemPoolEntry sha256) (fSearchForParents : Bool) : SetEntries :=
  match calculateMemPoolAncestors pool nNoLimit entry fSearchForParents with
  | .ok setAncestors => setAncestors
  | .error _ => ∅

def calculateDescendants (entryit : Uint256) (setDescendants : SetEntries) : SetEntries :=
  worklist SetEntries.first pool.getMemPoolChildren pool.mapTx.keys.card
    (if entryit ∈ setDescendants then ∅ else {entryit}) setDescendants

end Ancestors

section Add

variable (pool : CTxMemPool sha256)

def updateAncestorsOf (add : Bool) (it : Uint256) (setAncestors : SetEntries) : Option (CTxMemPool sha256) :=
  let linked := (pool.getMemPoolParents it).inOrder.foldl (fun pool piter => pool.updateChild piter it add) pool
  let updateCount : ℤ := if add then 1 else -1
  linked.modifyAll setAncestors (CTxMemPoolEntry.updateDescendantState
    (updateCount * pool.valueAt (·.getTxSize) it) (updateCount * pool.valueAt (·.getModifiedFee) it) updateCount)

def updateEntryForAncestors (it : Uint256) (setAncestors : SetEntries) : Option (CTxMemPool sha256) :=
  pool.modify it (CTxMemPoolEntry.updateAncestorState
    (setAncestors.inOrder.map (pool.valueAt (·.getTxSize))).sum
    (setAncestors.inOrder.map (pool.valueAt (·.getModifiedFee))).sum setAncestors.card
    (setAncestors.inOrder.map (pool.valueAt (·.sigOpCost))).sum)

/-- `mapTx.insert` and `mapLinks.insert`, which keep what is there. -/
def insertEntry (entry : CTxMemPoolEntry sha256) : CTxMemPool sha256 :=
  { pool with
    mapTx := if entry.tx.hash ∈ pool.mapTx then pool.mapTx else pool.mapTx.insert entry.tx.hash entry
    mapLinks := if entry.tx.hash ∈ pool.mapLinks then pool.mapLinks
      else pool.mapLinks.insert entry.tx.hash ⟨∅, ∅⟩ }

/-- The fee delta that `PrioritiseTransaction` has left. -/
def applyDelta (it : Uint256) : Option (CTxMemPool sha256) :=
  match pool.mapDeltas.lookup it with
  | none => some pool
  | some delta => if delta ≠ 0 then pool.modify it (fun e => some (e.updateFeeDelta delta)) else some pool

def spendInputs (tx : CTransaction sha256) : CTxMemPool sha256 :=
  { pool with
    mapNextTx := tx.vin.foldl
      (fun m txin => if txin.prevout ∈ m then m else m.insert txin.prevout tx) pool.mapNextTx }

def linkParents (it : Uint256) (setParentTransactions : SetEntries) : CTxMemPool sha256 :=
  (setParentTransactions.inOrder.filter (· ∈ pool.mapTx)).foldl
    (fun pool phash => pool.updateParent it phash true) pool

/-- The new entry stands at the end of `vTxHashes`. -/
def appendHash (it : Uint256) (witnessHash : Uint256) : Option (CTxMemPool sha256) :=
  { pool with vTxHashes := pool.vTxHashes ++ [(witnessHash, it)] }.modify it
    (fun e => some { e with vTxHashesIdx := pool.vTxHashes.length })

/-- `addUnchecked`. The callers pass the id of the transaction. -/
def addUnchecked (entry : CTxMemPoolEntry sha256) (setAncestors : SetEntries) : Option (CTxMemPool sha256) := do
  let newit := entry.tx.hash
  let pool ← (pool.insertEntry entry).applyDelta newit
  let pool := { pool with cachedInnerUsage := pool.cachedInnerUsage + entry.nUsageSize }
  let tx := ((pool.mapTx.lookup newit).map (·.tx)).getD entry.tx
  let pool := (pool.spendInputs tx).linkParents newit (tx.vin.map (·.prevout.hash)).toFinset
  let pool ← pool.updateAncestorsOf true newit setAncestors
  let pool ← pool.updateEntryForAncestors newit setAncestors
  { pool with totalTxSize := pool.totalTxSize + entry.getTxSize }.appendHash newit tx.witnessHash

end Add

section Remove

variable (pool : CTxMemPool sha256)

def updateChildrenForRemoval (it : Uint256) : CTxMemPool sha256 :=
  (pool.getMemPoolChildren it).inOrder.foldl (fun pool updateIt => pool.updateParent updateIt it false) pool

def updateDescendantsOf (removeIt : Uint256) : Option (CTxMemPool sha256) :=
  pool.modifyAll ((pool.calculateDescendants removeIt ∅).erase removeIt) (CTxMemPoolEntry.updateAncestorState
    (-pool.valueAt (·.getTxSize) removeIt) (-pool.valueAt (·.getModifiedFee) removeIt) (-1)
    (-pool.valueAt (·.sigOpCost) removeIt))

def linkedAncestors (it : Uint256) : SetEntries :=
  match pool.mapTx.lookup it with
  | none => ∅
  | some entry => pool.allAncestors entry false

/-- `UpdateForRemoveFromMempool`. -/
def updateForRemoveFromMempool (entriesToRemove : SetEntries) (updateDescendants : Bool) :
    Option (CTxMemPool sha256) := do
  let pool ← (if updateDescendants then
      entriesToRemove.inOrder.foldlM (fun pool removeIt => pool.updateDescendantsOf removeIt) pool
    else some pool)
  let pool ← entriesToRemove.inOrder.foldlM
    (fun pool removeIt => pool.updateAncestorsOf false removeIt (pool.linkedAncestors removeIt)) pool
  return entriesToRemove.inOrder.foldl (fun pool removeIt => pool.updateChildrenForRemoval removeIt) pool

/-- The last element of `vTxHashes` takes the place of the removed one. -/
def dropHash (idx : ℕ) : CTxMemPool sha256 :=
  if 1 < pool.vTxHashes.length then
    match pool.vTxHashes.getLast? with
    | none => pool
    | some back =>
      { pool with
        vTxHashes := (pool.vTxHashes.set idx back).dropLast
        mapTx := match pool.mapTx.lookup back.2 with
          | none => pool.mapTx
          | some e => pool.mapTx.insert back.2 { e with vTxHashesIdx := idx } }
  else { pool with vTxHashes := [] }

/-- `removeUnchecked`. -/
def removeUnchecked (it : Uint256) : CTxMemPool sha256 :=
  match pool.mapTx.lookup it with
  | none => pool
  | some e =>
    let pool := { pool with
      mapNextTx := e.tx.vin.foldl (fun m (txin : CTxIn) => m.erase txin.prevout) pool.mapNextTx }
    let pool := pool.dropHash e.vTxHashesIdx
    let links := pool.linksAt it
    { pool with
      totalTxSize := pool.totalTxSize - e.getTxSize
      cachedInnerUsage := pool.cachedInnerUsage - e.nUsageSize -
        (setNodeUsage * links.parents.card + setNodeUsage * links.children.card)
      mapLinks := pool.mapLinks.erase it
      mapTx := pool.mapTx.erase it }

def removeStaged (stage : SetEntries) (updateDescendants : Bool) : Option (CTxMemPool sha256) := do
  let pool ← pool.updateForRemoveFromMempool stage updateDescendants
  return stage.inOrder.foldl (fun pool it => pool.removeUnchecked it) pool

def descendantsOf (s : SetEntries) : SetEntries :=
  s.inOrder.foldl (fun setDescendants it => pool.calculateDescendants it setDescendants) ∅

/-- What `removeRecursive` starts from: the entry, or the entries that spend an output of it. -/
def removeRecursiveRoots (origTx : CTransaction sha256) : SetEntries :=
  if origTx.hash ∈ pool.mapTx then {origTx.hash}
  else ((List.range origTx.vout.length).filterMap (fun i =>
    (pool.mapNextTx.lookup ⟨origTx.hash, UInt32.ofNat i⟩).map (·.hash))).toFinset

def removeRecursive (origTx : CTransaction sha256) : Option (CTxMemPool sha256) :=
  if ∀ it ∈ pool.removeRecursiveRoots origTx, it ∈ pool.mapTx then
    pool.removeStaged (pool.descendantsOf (pool.removeRecursiveRoots origTx)) false
  else none

def clearPrioritisation (hash : Uint256) : CTxMemPool sha256 :=
  { pool with mapDeltas := pool.mapDeltas.erase hash }

/-- One input in `removeConflicts`. -/
def removeConflict (tx : CTransaction sha256) (txin : CTxIn) : Option (CTxMemPool sha256) :=
  match pool.mapNextTx.lookup txin.prevout with
  | none => some pool
  | some txConflict =>
    if txConflict.hash ≠ tx.hash then (pool.clearPrioritisation txConflict.hash).removeRecursive txConflict
    else some pool

def removeConflicts (tx : CTransaction sha256) : Option (CTxMemPool sha256) :=
  tx.vin.foldlM (fun pool txin => pool.removeConflict tx txin) pool

/-- One transaction in `removeForBlock`. -/
def removeForBlockTx (tx : CTransaction sha256) : Option (CTxMemPool sha256) := do
  let pool ← (if tx.hash ∈ pool.mapTx then pool.removeStaged {tx.hash} true else some pool)
  let pool ← pool.removeConflicts tx
  return pool.clearPrioritisation tx.hash

def removeForBlock (vtx : List (CTransaction sha256)) : Option (CTxMemPool sha256) :=
  vtx.foldlM (fun pool tx => pool.removeForBlockTx tx) pool

def clear : CTxMemPool sha256 :=
  { pool with mapLinks := ∅, mapTx := ∅, mapNextTx := ∅, totalTxSize := 0, cachedInnerUsage := 0 }

def expire (time : ℤ) : Option (CTxMemPool sha256) :=
  pool.removeStaged (pool.descendantsOf (pool.mapTx.keys.filter (fun it => pool.valueAt (·.nTime) it < time))) false

/-- The loop of `TrimToSize`. Which entry stands first in the order of `descendant_score`, and the memory
that is used, are given. -/
def trimToSizeLoop (lowest : CTxMemPool sha256 → Uint256) (dynamicMemoryUsage : CTxMemPool sha256 → ℕ)
    (sizelimit : ℕ) : ℕ → CTxMemPool sha256 → Option (CTxMemPool sha256)
  | 0, pool => some pool
  | fuel + 1, pool =>
    if pool.mapTx.keys.Nonempty ∧ sizelimit < dynamicMemoryUsage pool then do
      let pool ← pool.removeStaged (pool.calculateDescendants (lowest pool) ∅) false
      trimToSizeLoop lowest dynamicMemoryUsage sizelimit fuel pool
    else some pool

def trimToSize (lowest : CTxMemPool sha256 → Uint256) (dynamicMemoryUsage : CTxMemPool sha256 → ℕ)
    (sizelimit : ℕ) : Option (CTxMemPool sha256) :=
  trimToSizeLoop lowest dynamicMemoryUsage sizelimit pool.mapTx.keys.card pool

end Remove

section Prioritise

variable (pool : CTxMemPool sha256)

/-- `PrioritiseTransaction`. -/
def prioritiseTransaction (hash : Uint256) (nFeeDelta : ℤ) : Option (CTxMemPool sha256) :=
  let delta := (pool.mapDeltas.lookup hash).getD 0 + nFeeDelta
  let pool := { pool with mapDeltas := pool.mapDeltas.insert hash delta }
  if hash ∈ pool.mapTx then do
    let pool ← pool.modify hash (fun e => some (e.updateFeeDelta delta))
    let pool ← pool.modifyAll (pool.linkedAncestors hash) (CTxMemPoolEntry.updateDescendantState 0 nFeeDelta 0)
    pool.modifyAll ((pool.calculateDescendants hash ∅).erase hash)
      (CTxMemPoolEntry.updateAncestorState 0 nFeeDelta 0 0)
  else some pool

end Prioritise

section FromBlock

/-- `cacheMap`. -/
abbrev CacheMap := Finmap (fun _ : Uint256 => SetEntries)

/-- One child in `UpdateForDescendants`: the stage and the descendants found. -/
def stageChild (cachedDescendants : CacheMap) (st : SetEntries × SetEntries) (childEntry : Uint256) :
    SetEntries × SetEntries :=
  match cachedDescendants.lookup childEntry with
  | some cached => (st.1, st.2 ∪ cached)
  | none => if childEntry ∈ st.2 then st else (insert childEntry st.1, st.2)

variable (pool : CTxMemPool sha256)

/-- The loop of `UpdateForDescendants`. -/
def descendantLoop (cachedDescendants : CacheMap) : ℕ → SetEntries → SetEntries → SetEntries
  | 0, _, setAllDescendants => setAllDescendants
  | fuel + 1, stageEntries, setAllDescendants =>
    match stageEntries.first with
    | none => setAllDescendants
    | some cit =>
      let st := (pool.getMemPoolChildren cit).inOrder.foldl (stageChild cachedDescendants)
        (stageEntries.erase cit, insert cit setAllDescendants)
      descendantLoop cachedDescendants fuel st.1 st.2

/-- `UpdateForDescendants`. -/
def updateForDescendants (updateIt : Uint256) (cachedDescendants : CacheMap) (setExclude : SetEntries) :
    Option (CTxMemPool sha256 × CacheMap) := do
  let setAllDescendants : SetEntries := pool.descendantLoop cachedDescendants pool.mapTx.keys.card
    (pool.getMemPoolChildren updateIt) ∅
  let counted : SetEntries := setAllDescendants.filter (· ∉ setExclude)
  let updated ← pool.modifyAll counted (CTxMemPoolEntry.updateAncestorState
    (pool.valueAt (·.getTxSize) updateIt) (pool.valueAt (·.getModifiedFee) updateIt) 1
    (pool.valueAt (·.sigOpCost) updateIt))
  let updated ← updated.modify updateIt (CTxMemPoolEntry.updateDescendantState
    (counted.inOrder.map (pool.valueAt (·.getTxSize))).sum
    (counted.inOrder.map (pool.valueAt (·.getModifiedFee))).sum counted.card)
  return (updated, if counted = ∅ then cachedDescendants
    else cachedDescendants.insert updateIt (((cachedDescendants.lookup updateIt).getD ∅) ∪ counted))

def spendersOf (hash : Uint256) : SetEntries :=
  (pool.mapNextTx.keys.filter (·.hash = hash)).biUnion
    (fun o => ((pool.mapNextTx.lookup o).map (fun tx => ({tx.hash} : SetEntries))).getD ∅)

/-- One id in `UpdateTransactionsFromBlock`. -/
def updateTransactionFromBlock (setAlreadyIncluded : SetEntries) (st : CTxMemPool sha256 × CacheMap)
    (hash : Uint256) : Option (CTxMemPool sha256 × CacheMap) :=
  if hash ∈ st.1.mapTx then
    if ∀ child ∈ st.1.spendersOf hash, child ∈ st.1.mapTx then
      ((st.1.spendersOf hash).inOrder.filter (· ∉ setAlreadyIncluded)).foldl
        (fun pool child => (pool.updateChild hash child true).updateParent child hash true) st.1
      |>.updateForDescendants hash st.2 setAlreadyIncluded
    else none
  else some st

def updateTransactionsFromBlock (vHashesToUpdate : List Uint256) : Option (CTxMemPool sha256) := do
  let st ← vHashesToUpdate.reverse.foldlM (updateTransactionFromBlock vHashesToUpdate.toFinset) (pool, ∅)
  return st.1

end FromBlock

end CTxMemPool

/-! ## What the steps of the pool change -/

section Maps

variable {K V : Type} [DecidableEq K]

lemma lookup_insert_apply (m : Finmap (fun _ : K => V)) (a : K) (b : V) (x : K) :
    (m.insert a b).lookup x = if x = a then some b else m.lookup x := by
  by_cases hx : x = a
  · rw [if_pos hx, hx, Finmap.lookup_insert]
  · rw [if_neg hx, Finmap.lookup_insert_of_ne m hx]

lemma lookup_erase_apply (m : Finmap (fun _ : K => V)) (a x : K) :
    (m.erase a).lookup x = if x = a then none else m.lookup x := by
  by_cases hx : x = a
  · rw [if_pos hx, hx, Finmap.lookup_erase]
  · rw [if_neg hx, Finmap.lookup_erase_ne hx]

end Maps

namespace CTxMemPool

variable {sha256 : Bytes → Uint256}

section Modify

variable {pool pool' : CTxMemPool sha256} {f : CTxMemPoolEntry sha256 → Option (CTxMemPoolEntry sha256)}

/-- The entries of `s` are changed by `f`, and nothing else is. -/
structure Modified (pool : CTxMemPool sha256) (s : SetEntries)
    (f : CTxMemPoolEntry sha256 → Option (CTxMemPoolEntry sha256)) (pool' : CTxMemPool sha256) : Prop where
  rest : pool' = { pool with mapTx := pool'.mapTx }
  inside : ∀ id ∈ s, pool'.mapTx.lookup id = (pool.mapTx.lookup id).bind f
  outside : ∀ id ∉ s, pool'.mapTx.lookup id = pool.mapTx.lookup id
  defined : ∀ id ∈ s, ∀ e, pool.mapTx.lookup id = some e → (f e).isSome

lemma modified_of_modify {it : Uint256} (h : pool.modify it f = some pool') : Modified pool {it} f pool' := by
  unfold modify at h
  cases hit : pool.mapTx.lookup it with
  | none =>
    rw [hit] at h
    obtain rfl := Option.some.inj h
    refine ⟨rfl, ?_, fun _ _ => rfl, ?_⟩
    · intro id hid
      rw [mem_singleton.mp hid, hit, bind_none]
    · intro id hid e he
      rw [mem_singleton.mp hid, hit] at he
      cases he
  | some e =>
    rw [hit] at h
    obtain ⟨e', he', rfl⟩ := map_eq_some_iff.mp h
    refine ⟨rfl, ?_, ?_, ?_⟩
    · intro id hid
      rw [mem_singleton.mp hid, Finmap.lookup_insert, hit, bind_some, he']
    · intro id hid
      exact Finmap.lookup_insert_of_ne _ (fun h => hid (mem_singleton.mpr h))
    · intro id hid e₀ he₀
      rw [mem_singleton.mp hid, hit, Option.some.injEq] at he₀
      rw [← he₀, he']
      rfl

lemma exists_modify (pool : CTxMemPool sha256) {it : Uint256} (h : ∀ e, pool.mapTx.lookup it = some e → (f e).isSome) :
    ∃ pool', pool.modify it f = some pool' := by
  unfold modify
  cases hit : pool.mapTx.lookup it with
  | none => exact ⟨pool, rfl⟩
  | some e =>
    obtain ⟨e', he'⟩ := isSome_iff_exists.mp (h e hit)
    refine ⟨{ pool with mapTx := pool.mapTx.insert it e' }, ?_⟩
    dsimp only
    rw [he']
    rfl

lemma modified_of_foldlM {l : List Uint256} (hl : l.Nodup)
    (h : l.foldlM (fun pool it => pool.modify it f) pool = some pool') :
    Modified pool l.toFinset f pool' := by
  induction l generalizing pool with
  | nil =>
    obtain rfl := Option.some.inj h
    exact ⟨rfl, fun id hid => by simp at hid, fun _ _ => rfl, fun id hid => by simp at hid⟩
  | cons it l ih =>
    rw [List.nodup_cons] at hl
    rw [List.foldlM_cons] at h
    obtain ⟨mid, hmid, h⟩ := bind_eq_some_iff.mp h
    have hfirst := modified_of_modify hmid
    have hrest := ih hl.2 h
    have hkeep : ∀ id ∈ l, mid.mapTx.lookup id = pool.mapTx.lookup id := by
      intro id hid
      apply hfirst.outside
      rw [mem_singleton]
      rintro rfl
      exact hl.1 hid
    rw [List.toFinset_cons]
    refine ⟨?_, ?_, ?_, ?_⟩
    · rw [hrest.rest, hfirst.rest]
    · intro id hid
      by_cases hmem : id ∈ l
      · rw [hrest.inside id (List.mem_toFinset.mpr hmem), hkeep id hmem]
      · have hnot : id ∉ l.toFinset := fun h => hmem (List.mem_toFinset.mp h)
        have hit := (mem_insert.mp hid).resolve_right hnot
        rw [hrest.outside id hnot, hfirst.inside id (mem_singleton.mpr hit)]
    · intro id hid
      rw [mem_insert, not_or] at hid
      rw [hrest.outside id hid.2, hfirst.outside id (fun h => hid.1 (mem_singleton.mp h))]
    · intro id hid e he
      by_cases hmem : id ∈ l
      · rw [← hkeep id hmem] at he
        exact hrest.defined id (List.mem_toFinset.mpr hmem) e he
      · have hit := (mem_insert.mp hid).resolve_right (fun h => hmem (List.mem_toFinset.mp h))
        exact hfirst.defined id (mem_singleton.mpr hit) e he

lemma exists_foldlM {l : List Uint256} (hl : l.Nodup)
    (h : ∀ id ∈ l, ∀ e, pool.mapTx.lookup id = some e → (f e).isSome) :
    ∃ pool', l.foldlM (fun pool it => pool.modify it f) pool = some pool' := by
  induction l generalizing pool with
  | nil => exact ⟨pool, rfl⟩
  | cons it l ih =>
    rw [List.nodup_cons] at hl
    obtain ⟨mid, hmid⟩ := exists_modify pool (h it List.mem_cons_self)
    have hfirst := modified_of_modify hmid
    rw [List.foldlM_cons, hmid]
    apply ih hl.2
    intro id hid e he
    rw [hfirst.outside] at he
    · exact h id (List.mem_cons_of_mem _ hid) e he
    · rw [mem_singleton]
      rintro rfl
      exact hl.1 hid

lemma toFinset_inOrder (s : SetEntries) : s.inOrder.toFinset = s := sort_toFinset _ _

lemma modified_of_modifyAll {s : SetEntries} (h : pool.modifyAll s f = some pool') :
    Modified pool s f pool' := by
  have hfold := modified_of_foldlM s.nodup_inOrder h
  rwa [toFinset_inOrder] at hfold

lemma exists_modifyAll (pool : CTxMemPool sha256) {s : SetEntries}
    (h : ∀ id ∈ s, ∀ e, pool.mapTx.lookup id = some e → (f e).isSome) :
    ∃ pool', pool.modifyAll s f = some pool' :=
  exists_foldlM s.nodup_inOrder (fun id hid => h id (SetEntries.mem_inOrder.mp hid))

end Modify

section Links

variable {pool pool' : CTxMemPool sha256}

/-- Only links and their memory have changed. -/
def LinksChanged (pool pool' : CTxMemPool sha256) : Prop :=
  pool' = { pool with mapLinks := pool'.mapLinks, cachedInnerUsage := pool'.cachedInnerUsage }

lemma LinksChanged.refl (pool : CTxMemPool sha256) : LinksChanged pool pool := rfl

lemma LinksChanged.trans {pool'' : CTxMemPool sha256} (h : LinksChanged pool pool')
    (h' : LinksChanged pool' pool'') : LinksChanged pool pool'' := by
  unfold LinksChanged at h h' ⊢
  rw [h', h]

lemma LinksChanged.mapTx (h : LinksChanged pool pool') : pool'.mapTx = pool.mapTx := by
  rw [h]

lemma LinksChanged.vTxHashes (h : LinksChanged pool pool') : pool'.vTxHashes = pool.vTxHashes := by
  rw [h]

lemma linksChanged_updateChild (pool : CTxMemPool sha256) (entry child : Uint256) (add : Bool) :
    LinksChanged pool (pool.updateChild entry child add) := by
  cases add <;> rfl

lemma linksChanged_updateParent (pool : CTxMemPool sha256) (entry parent : Uint256) (add : Bool) :
    LinksChanged pool (pool.updateParent entry parent add) := by
  cases add <;> rfl

lemma linksChanged_foldl {ι : Type} (l : List ι) {step : CTxMemPool sha256 → ι → CTxMemPool sha256}
    (h : ∀ pool i, LinksChanged pool (step pool i)) : LinksChanged pool (l.foldl step pool) := by
  induction l generalizing pool with
  | nil => exact LinksChanged.refl pool
  | cons i l ih => exact (h pool i).trans ih

lemma linksChanged_linkParents (it : Uint256) (s : SetEntries) : LinksChanged pool (pool.linkParents it s) :=
  linksChanged_foldl _ (fun _ _ => linksChanged_updateParent _ _ _ _)

end Links

end CTxMemPool

end MutableBitcoin
