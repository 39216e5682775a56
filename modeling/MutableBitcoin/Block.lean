import MutableBitcoin.RedactIdentity

/-!
# Blocks

`CTransaction` of `primitives/transaction.h` and the block types of `primitives/block.h`. A `CTransaction` caches
the id that its constructor computed, so it exists only where `cHash` does not abort.
-/

namespace MutableBitcoin
open Lib

/-- A transaction with the id that its constructor has computed. -/
structure CTransaction (sha256 : Bytes → Uint256) extends CMutableTransaction where
  hash : Uint256
  computeHash_eq : computeHash sha256 toCMutableTransaction = some hash

/-- The header, with the root of the trie of versions. -/
structure CBlockHeader where
  nVersion : Int32
  hashPrevBlock : Uint256
  hashMerkleRoot : Uint256
  nTime : UInt32
  nBits : UInt32
  nNonce : UInt32
  hashUChainVersion : Uint256
deriving DecidableEq

def CBlockHeader.serialize (h : CBlockHeader) : Bytes :=
  serializeInt32 h.nVersion ++ h.hashPrevBlock.data ++ h.hashMerkleRoot.data ++
  serializeUInt32 h.nTime ++ serializeUInt32 h.nBits ++ serializeUInt32 h.nNonce ++
  h.hashUChainVersion.data

def CBlockHeader.getHash (sha256 : Bytes → Uint256) (h : CBlockHeader) : Uint256 :=
  hash256 sha256 h.serialize

/-- The flag `fChecked` is memory only and mutable: `CheckBlock` sets it. -/
structure CBlock (sha256 : Bytes → Uint256) extends CBlockHeader where
  vtx : List (CTransaction sha256)
  fChecked : Bool

section

variable {sha256 : Bytes → Uint256}

namespace CTransaction

@[ext] lemma ext {t t' : CTransaction sha256} (h : t.toCMutableTransaction = t'.toCMutableTransaction) :
    t = t' := by
  obtain ⟨tx, hash, hc⟩ := t
  obtain ⟨tx', hash', hc'⟩ := t'
  obtain rfl : tx = tx' := h
  obtain rfl : hash = hash' := Option.some_inj.mp (hc.symm.trans hc')
  rfl

end CTransaction

namespace CBlock

def serialize (s : SerStream) (block : CBlock sha256) : Bytes :=
  block.toCBlockHeader.serialize ++
    serializeVector (fun tx => tx.toCMutableTransaction.serialize s) block.vtx

def getSerializeSize (s : SerStream) (block : CBlock sha256) : ℕ := (block.serialize s).length

/-- The part of `CheckBlockUChain` that puts `newTX` in the place of the transaction with the id
`hashOldTX`; `assert(index!=-1)`. -/
def replaceTransaction (block : CBlock sha256) (hashOldTX : Uint256) (newTX : CTransaction sha256) :
    Option (CBlock sha256) := do
  let index ← block.vtx.findIdx? (fun tx => tx.hash = hashOldTX)
  return { block with vtx := block.vtx.set index newTX }

end CBlock

lemma CBlockHeader.length_serialize (h : CBlockHeader) : h.serialize.length = 112 := by
  simp [CBlockHeader.serialize, serializeInt32, serializeUInt32, BaseBlob.length_data]

end

/-!
## Merkle roots

`MerkleComputation` of `consensus/merkle.cpp`, without the branch that block validation does not
ask for. `inner` holds the hashes of the complete subtrees to the left of the next leaf, one for
each bit of `count`.
-/

/-- The variables of the loop over the leaves. -/
structure MerkleState where
  inner : ℕ → Uint256
  count : ℕ
  mutated : Bool

section Merkle

variable (sha256 : Bytes → Uint256)

def merklePair (a b : Uint256) : Uint256 := hash256 sha256 (a.data ++ b.data)

/-- The loop over the low zero bits of `count`: the level it stops at, the hash and `mutated`. -/
def mergeLevels (inner : ℕ → Uint256) (count : ℕ) : ℕ → ℕ → Uint256 → Bool → ℕ × Uint256 × Bool
  | 0, level, h, mutated => (level, h, mutated)
  | fuel + 1, level, h, mutated =>
    if count.testBit level then (level, h, mutated)
    else mergeLevels inner count fuel (level + 1) (merklePair sha256 (inner level) h)
      (mutated || inner level = h)

def addLeaf (st : MerkleState) (leaf : Uint256) : MerkleState :=
  let count := st.count + 1
  let (level, h, mutated) := mergeLevels sha256 st.inner count 32 0 leaf st.mutated
  ⟨Function.update st.inner level h, count, mutated⟩

/-- The final sweep over the rightmost branch: `h` is combined with itself, and then with the
subtrees to its left. -/
def sweep (inner : ℕ → Uint256) : ℕ → ℕ → ℕ → Uint256 → Uint256
  | 0, _, _, h => h
  | fuel + 1, count, level, h =>
    if count = 2 ^ level then h
    else
      let count := count + 2 ^ level
      let (level, h, _) := mergeLevels sha256 inner count 32 (level + 1) (merklePair sha256 h h) false
      sweep inner fuel count level h

def lowBit (count : ℕ) : ℕ → ℕ → ℕ
  | 0, level => level
  | fuel + 1, level => if count.testBit level then level else lowBit count fuel (level + 1)

/-- The root and the flag `mutated`. -/
def computeMerkleRoot (leaves : List Uint256) : Uint256 × Bool :=
  if leaves.isEmpty then (BaseBlob.null 32, false)
  else
    let st := leaves.foldl (addLeaf sha256) ⟨fun _ => BaseBlob.null 32, 0, false⟩
    let level := lowBit st.count 32 0
    (sweep sha256 st.inner 32 st.count level (st.inner level), st.mutated)

end Merkle

section Roots

variable {sha256 : Bytes → Uint256}

namespace CTransaction

lemma lt_q (t : CTransaction sha256) :
    (t.rValue.value : ℤ) < cChamHash.q ∧ (t.sValue.value : ℤ) < cChamHash.q :=
  lt_q_of_chamHash t.computeHash_eq

/-- `GetWitnessHash` passes the range checks that the constructor has passed. -/
def witnessHash (t : CTransaction sha256) : Uint256 :=
  (getWitnessHash sha256 t.toCMutableTransaction).get
    (by rw [getWitnessHash_eq t.lt_q.1 t.lt_q.2]; rfl)

end CTransaction

def blockMerkleRoot (block : CBlock sha256) : Uint256 × Bool :=
  computeMerkleRoot sha256 (block.vtx.map (·.hash))

def blockWitnessMerkleRoot (block : CBlock sha256) : Uint256 × Bool :=
  computeMerkleRoot sha256 (BaseBlob.null 32 :: block.vtx.tail.map (·.witnessHash))

end Roots

end MutableBitcoin
