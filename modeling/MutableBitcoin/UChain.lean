import MutableBitcoin.BlockFile

/-!
# Mutants

`CheckBlockUChain` of `validation.cpp`. A mutant is an output of a transaction that is not a coinbase whose script
names the id of a transaction to redact.
-/

namespace MutableBitcoin
open Lib

def MIN_MUTABLETX_AGE : ℕ := 100

abbrev Trie := Str → Option Str

namespace Trie

def empty : Trie := fun _ => none

def contains (mpt : Trie) (key : Str) : Bool := (mpt key).isSome

def insert (mpt : Trie) (key value : Str) : Trie := Function.update mpt key (some value)

end Trie

/-- An instruction and the text of the id that it names. -/
structure Mutant where
  op : RedactOp
  txSID : Str
deriving DecidableEq

def Mutant.hashOldTX (m : Mutant) : Uint256 := uint256S m.txSID

/-- `substr(8, 64)` throws `std::out_of_range` if the text is shorter than 8. -/
def substrThrows (script : CScript) : Bool := isOpReturn script && (hexStr script).length < 8

/-- The instruction in a script: `6a226444` to hide or `6a226341` to replace, and an id. -/
def mutantOf (script : CScript) : Option Mutant :=
  let op := (hexStr script).take 8
  let txSID := ((hexStr script).drop 8).take 64
  if !isOpReturn script then none
  else if txSID.length = 64 ∧ op = ['6', 'a', '2', '2', '6', '4', '4', '4'] then some ⟨.hide, txSID⟩
  else if txSID.length = 64 ∧ op = ['6', 'a', '2', '2', '6', '3', '4', '1'] then some ⟨.replace, txSID⟩
  else none

section Scan

variable {sha256 : Bytes → Uint256}

/-- The stored transaction with an id and the height of its block. -/
def getTransaction (index : Uint256 → Option ℕ) (disk : List (CBlock sha256)) (hash : Uint256) :
    Option (CTransaction sha256 × ℕ) := do
  let hight ← index hash
  let block ← disk[hight]?
  let i ← block.vtx.findIdx? (fun tx => tx.hash = hash)
  let tx ← block.vtx[i]?
  return (tx, hight)

/-- The mutable transaction of a mutant in a block of height `hightMutant`: it exists, has an
`OP_RETURN` output and is in an earlier block. -/
def findMutable (index : Uint256 → Option ℕ) (disk : List (CBlock sha256)) (hightMutant : ℕ)
    (m : Mutant) : Option (CTransaction sha256 × ℕ) := do
  let (oldTX, hightMutable) ← getTransaction index disk m.hashOldTX
  let _ ← firstOpReturn oldTX.vout
  if hightMutant ≤ hightMutable then none else some (oldTX, hightMutable)

def withResult {α β : Type} (f : α → Option β) (a : α) : Option { b : β // f a = some b } :=
  if h : (f a).isSome then some ⟨(f a).get h, (Option.some_get h).symm⟩ else none

/-- Steps 1 to 6 and the constructor of `newTX`. -/
def redactTransaction (op : RedactOp) (oldTX : CTransaction sha256) : Option (CTransaction sha256) := do
  let newTXM ← redact sha256 op oldTX.toCMutableTransaction
  let hash ← withResult (computeHash sha256) newTXM
  return ⟨newTXM, hash.1, hash.2⟩

def rewriteDisk (disk : List (CBlock sha256)) (hight : ℕ) (hashOldTX : Uint256)
    (newTX : CTransaction sha256) : Option (List (CBlock sha256)) := do
  let block ← disk[hight]?
  let block ← block.replaceTransaction hashOldTX newTX
  return disk.set hight block

/-- Why a call does not return: an assertion on heights fails, the scan of a block throws or aborts,
the assertion on the root fails, or the bound on the depth of a recursion is reached. -/
inductive Stop where
  | hight
  | scan
  | root
  | depth
deriving DecidableEq

/-- `assert(p)`. -/
def requireThat (reason : Stop) (p : Prop) [Decidable p] : Except Stop Unit :=
  if p then .ok () else .error reason

def ofScan {α : Type} : Option α → Except Stop α
  | none => .error .scan
  | some a => .ok a

lemma requireThat_eq_ok_iff {reason : Stop} {p : Prop} [Decidable p] :
    requireThat reason p = .ok () ↔ p := by
  unfold requireThat
  split_ifs with h <;> simp [h]

lemma map_ofScan_eq_ok_iff {α β : Type} {o : Option α} {f : α → β} {b : β} :
    (ofScan o).map f = .ok b ↔ ∃ a, o = some a ∧ f a = b := by
  cases o with
  | none => simp [ofScan, Except.map]
  | some a => simp [ofScan, Except.map]

lemma requireThat_pos {reason : Stop} {p : Prop} [Decidable p] (h : p) :
    requireThat reason p = .ok () := requireThat_eq_ok_iff.mpr h

/-- What a scan is made for. -/
inductive Mode where
  | createMPTRoot
  | nextMPTRoot
  | updatehotBlock
deriving DecidableEq

/-- The variables of a scan. -/
structure ScanState (sha256 : Bytes → Uint256) where
  disk : List (CBlock sha256)
  mpt : Trie
  mutantInBlock : List Str

variable (index : Uint256 → Option ℕ) (mode : Mode) (hightMutant : ℕ)

def createVersion (st : ScanState sha256) (oldTX : CTransaction sha256) : ScanState sha256 :=
  let key := oldTX.hash.getHex
  if st.mpt.contains key then st
  else { st with mpt := st.mpt.insert key (valueMPT sha256 oldTX.toCMutableTransaction) }

/-- The new version of a transaction that the block names. -/
def nextVersion (st : ScanState sha256) (m : Mutant) (oldTX : CTransaction sha256)
    (hightMutable : ℕ) : Option (ScanState sha256) :=
  if m.txSID ∈ st.mutantInBlock then some st
  else do
    let newTX ← redactTransaction m.op oldTX
    let mpt := st.mpt.insert newTX.hash.getHex (valueMPT sha256 newTX.toCMutableTransaction)
    let disk ← (if mode = .updatehotBlock then rewriteDisk st.disk hightMutable m.hashOldTX newTX
      else some st.disk)
    return ⟨disk, mpt, m.txSID :: st.mutantInBlock⟩

/-- One output of the hot block. -/
def processOutput (st : ScanState sha256) (txout : CTxOut) : Option (ScanState sha256) :=
  if substrThrows txout.scriptPubKey then none
  else match mutantOf txout.scriptPubKey with
    | none => some st
    | some m => match findMutable index st.disk hightMutant m with
      | none => some st
      | some (oldTX, hightMutable) =>
        if mode = .createMPTRoot then some (createVersion st oldTX)
        else nextVersion mode st m oldTX hightMutable

def mutantOutputs (block : CBlock sha256) : List CTxOut :=
  (block.vtx.filter (fun tx => !tx.isCoinBase)).flatMap (·.vout)

def scanBlock (block : CBlock sha256) (disk : List (CBlock sha256)) (mpt : Trie) :
    Option (List (CBlock sha256) × Trie) := do
  let st ← (mutantOutputs block).foldlM (processOutput index mode hightMutant) ⟨disk, mpt, []⟩
  return (st.disk, st.mpt)

/-- The blocks and the trie after the scan of one block. The age of the block is checked first. -/
def checkBlockUChain (chainActHeight : ℕ) (block : CBlock sha256) (disk : List (CBlock sha256))
    (mpt : Trie) : Except Stop (List (CBlock sha256) × Trie) :=
  if mode = .createMPTRoot ∧ chainActHeight < hightMutant + MIN_MUTABLETX_AGE then .ok (disk, mpt)
  else if mode = .updatehotBlock ∧ hightMutant + MIN_MUTABLETX_AGE ≠ chainActHeight then .error .hight
  else if mode = .nextMPTRoot ∧ hightMutant + MIN_MUTABLETX_AGE ≠ chainActHeight + 1 then .error .hight
  else ofScan (scanBlock index mode hightMutant block disk mpt)

variable {index hightMutant} {chainActHeight : ℕ} {block : CBlock sha256} {disk : List (CBlock sha256)}
  {mpt : Trie}

lemma checkBlockUChain_nextMPTRoot (h : hightMutant + MIN_MUTABLETX_AGE = chainActHeight + 1) :
    checkBlockUChain index .nextMPTRoot hightMutant chainActHeight block disk mpt =
      ofScan (scanBlock index .nextMPTRoot hightMutant block disk mpt) := by
  unfold checkBlockUChain
  rw [if_neg (by simp), if_neg (by simp), if_neg (by simp [h])]

lemma checkBlockUChain_updatehotBlock (h : hightMutant + MIN_MUTABLETX_AGE = chainActHeight) :
    checkBlockUChain index .updatehotBlock hightMutant chainActHeight block disk mpt =
      ofScan (scanBlock index .updatehotBlock hightMutant block disk mpt) := by
  unfold checkBlockUChain
  rw [if_neg (by simp), if_neg (by simp [h]), if_neg (by simp)]

end Scan

/-!
## The trie of versions along the chain

The functions of `CVerifyDB` that keep the trie `mpt`, the list `mptList` of roots and the second trie `mptCache`,
and the places of `ConnectBlock`, `ProcessNewBlock`, `CreateNewBlock` and `VerifyDB` that call them. The root of a
trie is an arbitrary function of its map.
-/

/-- The stored blocks of the chain, the two tries and the list of roots. -/
structure VersionState (sha256 : Bytes → Uint256) where
  disk : List (CBlock sha256)
  mpt : Trie
  fMPTinit : Bool
  nMPTActiveHight : ℕ
  mptList : ℕ → Str
  nMPTCacheHight : ℕ
  mptCache : Trie

section Functions

variable {sha256 : Bytes → Uint256} (index : Uint256 → Option ℕ) (root : Trie → Str)

/-- `chainActive.Height()`. -/
def VersionState.height (st : VersionState sha256) : ℕ := st.disk.length - 1

lemma VersionState.height_congr {st st' : VersionState sha256} (h : st'.disk = st.disk) :
    st'.height = st.height := by
  unfold VersionState.height
  rw [h]

/-- The loop of `InitMerkelPatriciaTree` from the tip down to height 1. -/
def createTrie (disk : List (CBlock sha256)) (mpt : Trie) : Except Stop Trie :=
  (List.range' 1 (disk.length - 1)).reverse.foldlM (fun mpt hight =>
    match disk[hight]? with
    | none => .ok mpt
    | some block => do
      let (_, mpt) ← checkBlockUChain index .createMPTRoot hight (disk.length - 1) block disk mpt
      return mpt) mpt

def initMerkelPatriciaTree (st : VersionState sha256) : Except Stop (VersionState sha256) := do
  let mpt ← createTrie index st.disk st.mpt
  return { st with mpt := mpt, fMPTinit := true, nMPTActiveHight := st.height }

/-- `OpenMerkelPatriciaTree` and `InitMerkelPatriciaTree` on the stored blocks. -/
def startUp (disk : List (CBlock sha256)) : Except Stop (VersionState sha256) :=
  initMerkelPatriciaTree index ⟨disk, .empty, false, 0, fun _ => [], 0, .empty⟩

/-- `CVerifyDB::storeTempRootMerkelPatriciaTreeCache`. -/
def storeTempRootMerkelPatriciaTreeCache (st : VersionState sha256) (hight : ℕ) (value : Str)
    (fupdateTree : Bool) : VersionState sha256 :=
  { st with
    mptList := Function.update st.mptList hight value
    nMPTCacheHight :=
      if st.nMPTCacheHight < hight ∧ fupdateTree = true then hight else st.nMPTCacheHight }

/-- The hot block of `getNextRootMerkelPatriciaTree`, if there is one, is applied to the trie. -/
def applyHotBlock (st : VersionState sha256) : Except Stop (VersionState sha256) :=
  if MIN_MUTABLETX_AGE < st.height + 1 then
    let hotBlockHight := st.height + 1 - MIN_MUTABLETX_AGE
    match st.disk[hotBlockHight]? with
    | none => .ok st
    | some block => do
      let (_, mpt) ← checkBlockUChain index .nextMPTRoot hotBlockHight st.height block st.disk st.mpt
      let st := storeTempRootMerkelPatriciaTreeCache { st with mpt := mpt } (st.height + 1) (root mpt)
        false
      return { st with nMPTActiveHight := st.nMPTActiveHight + 1 }
  else .ok { st with nMPTActiveHight := st.nMPTActiveHight + 1 }

/-- `CVerifyDB::getNextRootMerkelPatriciaTree`. -/
def getNextRootMerkelPatriciaTree (st : VersionState sha256) :
    Except Stop (Str × VersionState sha256) := do
  let st ← (if st.fMPTinit then .ok st else initMerkelPatriciaTree index st)
  let st ← (if st.nMPTActiveHight = st.height then .ok st else initMerkelPatriciaTree index st)
  requireThat .hight (st.nMPTActiveHight = st.height)
  let st ← applyHotBlock index root st
  requireThat .hight (st.nMPTActiveHight = st.height + 1)
  return (root st.mpt, st)

/-- Rewrites the mutable transactions of the block that became old enough with the tip. -/
def updateHotBlock (st : VersionState sha256) : Except Stop (VersionState sha256) :=
  if MIN_MUTABLETX_AGE < st.height then
    let hotBlockHight := st.height - MIN_MUTABLETX_AGE
    match st.disk[hotBlockHight]? with
    | none => .ok st
    | some block => do
      let (disk, mpt) ← checkBlockUChain index .updatehotBlock hotBlockHight st.height block st.disk
        st.mpt
      return storeTempRootMerkelPatriciaTreeCache { st with disk := disk, mpt := mpt } st.height
        (root mpt) false
  else .ok st

/-- The root for the block after the one of height `best`, from the list or through `mptCache`. The
fuel bounds the depth of the recursion. -/
def cacheGetNextRootMerkelPatriciaTree :
    ℕ → VersionState sha256 → ℕ → Except Stop (Str × VersionState sha256)
  | 0, _, _ => .error .depth
  | fuel + 1, st, best =>
    let hight := best + 1
    let cacheMPT := st.mptList hight
    if !cacheMPT.isEmpty then .ok (cacheMPT, st)
    else if hight ≤ MIN_MUTABLETX_AGE then
      .ok (root st.mptCache,
        storeTempRootMerkelPatriciaTreeCache st hight (root st.mptCache) true)
    else if hight - 1 ≠ st.nMPTCacheHight ∧ st.nMPTCacheHight < hight ∧
        MIN_MUTABLETX_AGE < hight - st.nMPTCacheHight then do
      -- too much work: from the empty trie, block by block
      let st ← (List.range' (MIN_MUTABLETX_AGE - 1) (best + 1 - (MIN_MUTABLETX_AGE - 1))).foldlM
        (fun st hight => do
          requireThat .hight (hight < st.disk.length)
          let (_, st) ← cacheGetNextRootMerkelPatriciaTree fuel st hight
          return st) { st with mptCache := .empty }
      return (root st.mptCache,
        storeTempRootMerkelPatriciaTreeCache st hight (root st.mptCache) true)
    else do
      let st ← (if hight - 1 = st.nMPTCacheHight then .ok st
        else do
          let (_, st) ← cacheGetNextRootMerkelPatriciaTree fuel st (best - 1)
          return st)
      let mptCache ← (match st.disk[hight - MIN_MUTABLETX_AGE]? with
        | none => .ok st.mptCache
        | some block => do
          let (_, mptCache) ← checkBlockUChain index .nextMPTRoot (hight - MIN_MUTABLETX_AGE) best block
            st.disk st.mptCache
          return mptCache)
      return (root mptCache,
        storeTempRootMerkelPatriciaTreeCache { st with mptCache := mptCache } hight (root mptCache) true)

/-- The loop of `ConnectBlock` that advances the first trie, for a block after the one of height
`best`. The fuel bounds the number of rounds. -/
def advanceActiveHight : ℕ → VersionState sha256 → ℕ → Except Stop (VersionState sha256)
  | 0, _, _ => .error .depth
  | fuel + 1, st, best =>
    if st.nMPTActiveHight ≤ best then do
      let a := st.nMPTActiveHight
      let (_, st) ← getNextRootMerkelPatriciaTree index root st
      requireThat .hight (a ≠ st.nMPTActiveHight)
      advanceActiveHight fuel st best
    else .ok st

/-- The root that `ConnectBlock` compares with `hashUChainVersion`. -/
def predictMPTRoot (fuel : ℕ) (st : VersionState sha256) (best : ℕ) :
    Except Stop (Str × VersionState sha256) := do
  let st ← advanceActiveHight index root fuel st best
  cacheGetNextRootMerkelPatriciaTree index root fuel st best

/-- The check of `hashUChainVersion` in `ConnectBlock` for a block after the one of height `best`. -/
def checkUChainVersion (fuel : ℕ) (st : VersionState sha256) (block : CBlock sha256) (best : ℕ) :
    Except Stop (Bool × VersionState sha256) :=
  if 100 < best + 1 then do
    let (predictedMPTRoot, st) ← predictMPTRoot index root fuel st best
    return (block.hashUChainVersion.getHex = predictedMPTRoot, st)
  else .ok (true, st)

/-- `ConnectTip` of a block. `valid` stands for all other checks. -/
def connectTip (fuel : ℕ) (st : VersionState sha256) (block : CBlock sha256) (valid : Bool) :
    Except Stop (Bool × VersionState sha256) := do
  let (fVersion, st) ← checkUChainVersion index root fuel st block st.height
  if fVersion && valid then return (true, { st with disk := st.disk ++ [block] })
  else return (false, st)

/-- `DisconnectTip` does not touch the tries or the list of roots. -/
def disconnectTip (st : VersionState sha256) : VersionState sha256 := { st with disk := st.disk.dropLast }

/-- The blocks that `ActivateBestChain` connects, up to the first one that is rejected. -/
def connectBlocks (fuel : ℕ) : VersionState sha256 → List (CBlock sha256 × Bool) →
    Except Stop (List (CBlock sha256) × VersionState sha256)
  | st, [] => .ok ([], st)
  | st, (block, valid) :: blocks => do
    let (connected, st) ← connectTip index root fuel st block valid
    if connected then do
      let (more, st) ← connectBlocks fuel st blocks
      return (block :: more, st)
    else return ([], st)

/-- `ProcessNewBlock` after which `nDisconnect` blocks leave the active chain and some blocks are
connected. The hot block of the new tip is rewritten. -/
def processNewBlock (fuel : ℕ) (st : VersionState sha256) (nDisconnect : ℕ)
    (blocks : List (CBlock sha256 × Bool)) :
    Except Stop (List (CBlock sha256) × VersionState sha256) := do
  let (connected, st) ← connectBlocks index root fuel (disconnectTip^[nDisconnect] st) blocks
  let st ← updateHotBlock index root st
  return (connected, st)

/-- The part of `CreateNewBlock` that puts the root into the template. `TestBlockValidity` checks the
template, if its earlier checks let it come so far. -/
def createNewBlock (fuel : ℕ) (st : VersionState sha256) (template : CBlock sha256) (reached : Bool) :
    Except Stop (Str × VersionState sha256) := do
  let (hash, st) ← getNextRootMerkelPatriciaTree index root st
  let pblock := { template with hashUChainVersion := uint256S hash }
  let st ← (if reached then do
      let (_, st) ← checkUChainVersion index root fuel st pblock st.height
      return st
    else .ok st)
  return (hash, st)

/-- The part of `TestBlockValidity` of a block on the tip, once its earlier checks have passed. -/
def testBlockValidity (fuel : ℕ) (st : VersionState sha256) (block : CBlock sha256) :
    Except Stop (Bool × VersionState sha256) :=
  checkUChainVersion index root fuel st block st.height

/-- The loop of `VerifyDB` that connects stored blocks again, each after the block of height `best`.
`valid` stands for all other checks. -/
def reconnectBlocks (fuel : ℕ) (valid : ℕ → Bool) : VersionState sha256 → List ℕ →
    Except Stop (Bool × VersionState sha256)
  | st, [] => .ok (true, st)
  | st, best :: bests =>
    match st.disk[best + 1]? with
    | none => .ok (false, st)
    | some block => do
      let (fVersion, st) ← checkUChainVersion index root fuel st block best
      if fVersion && valid best then reconnectBlocks fuel valid st bests else return (false, st)

/-- `VerifyDB` where level 3 got down to the block of height `pindexState`. -/
def verifyDB (fuel : ℕ) (st : VersionState sha256) (nCheckLevel pindexState : ℕ) (valid : ℕ → Bool) :
    Except Stop (VersionState sha256) :=
  if nCheckLevel < 4 then .ok st
  else do
    let (connected, st) ← reconnectBlocks index root fuel valid st
      (List.range' pindexState (st.height - pindexState))
    if connected && 5 ≤ nCheckLevel then do
      let st ← initMerkelPatriciaTree index st
      requireThat .root ((st.disk[st.height]?).map (·.hashUChainVersion.getHex) = some (root st.mpt))
      return st
    else return st

end Functions

end MutableBitcoin
