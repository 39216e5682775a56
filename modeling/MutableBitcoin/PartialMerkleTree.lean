import MutableBitcoin.CheckBlock
import MutableBitcoin.MerkleRoot
import MutableBitcoin.RoundTrip

/-!
# Partial merkle trees

`CPartialMerkleTree` of `merkleblock.h` and `merkleblock.cpp`: a tree is flattened depth first into
flag bits and hashes, and read back from them. The numbers of nodes are far below the range of
`unsigned int`, since both directions bound the number of transactions.
-/

namespace MutableBitcoin
open Lib List

def MIN_TRANSACTION_WEIGHT : ℕ := WITNESS_SCALE_FACTOR * 60

/-- A tree flattened into bits and hashes. -/
structure CPartialMerkleTree where
  nTransactions : UInt32
  vBits : List Bool
  vHash : List Uint256
  fBad : Bool

def calcTreeWidth (nTransactions height : ℕ) : ℕ := (nTransactions + 2 ^ height - 1) / 2 ^ height

/-- `while (CalcTreeWidth(nHeight) > 1) nHeight++`. -/
def climbHeight (nTransactions : ℕ) : ℕ → ℕ → ℕ
  | 0, nHeight => nHeight
  | fuel + 1, nHeight =>
    if 1 < calcTreeWidth nTransactions nHeight then climbHeight nTransactions fuel (nHeight + 1) else nHeight

def calcHeight (nTransactions : ℕ) : ℕ := climbHeight nTransactions nTransactions 0

namespace CPartialMerkleTree

section Build

variable (sha256 : Bytes → Uint256) (vTxid : List Uint256) (vMatch : List Bool)

/-- `CalcHash`. -/
def calcHash : ℕ → ℕ → Uint256
  | 0, pos => leafAt vTxid pos
  | height + 1, pos =>
    let left := calcHash height (pos * 2)
    let right :=
      if pos * 2 + 1 < calcTreeWidth vTxid.length height then calcHash height (pos * 2 + 1) else left
    merklePair sha256 left right

def parentOfMatch (height pos : ℕ) : Bool :=
  (List.range' (pos * 2 ^ height) (2 ^ height)).any
    fun p => decide (p < vTxid.length) && vMatch.getD p false

def pushBit (t : CPartialMerkleTree) (bit : Bool) : CPartialMerkleTree :=
  { t with vBits := t.vBits ++ [bit] }

def pushHash (t : CPartialMerkleTree) (hash : Uint256) : CPartialMerkleTree :=
  { t with vHash := t.vHash ++ [hash] }

/-- `TraverseAndBuild`. -/
def traverseAndBuild : ℕ → ℕ → CPartialMerkleTree → CPartialMerkleTree
  | 0, pos, t => (t.pushBit (parentOfMatch vTxid vMatch 0 pos)).pushHash (calcHash sha256 vTxid 0 pos)
  | height + 1, pos, t =>
    let fParentOfMatch := parentOfMatch vTxid vMatch (height + 1) pos
    let t := t.pushBit fParentOfMatch
    if !fParentOfMatch then t.pushHash (calcHash sha256 vTxid (height + 1) pos)
    else
      let t := traverseAndBuild height (pos * 2) t
      if pos * 2 + 1 < calcTreeWidth vTxid.length height then traverseAndBuild height (pos * 2 + 1) t
      else t

def build : CPartialMerkleTree :=
  traverseAndBuild sha256 vTxid vMatch (calcHeight vTxid.length) 0
    ⟨UInt32.ofNat vTxid.length, [], [], false⟩

end Build

section Serialize

def packByte (vBits : List Bool) (k : ℕ) : UInt8 :=
  (List.range 8).foldl
    (fun byte i => byte ||| (if vBits.getD (8 * k + i) false then 1 else 0) <<< UInt8.ofNat i) 0

def packBits (vBits : List Bool) : Bytes :=
  (List.range ((vBits.length + 7) / 8)).map (packByte vBits)

def unpackBits (vBytes : Bytes) : List Bool :=
  (List.range (vBytes.length * 8)).map
    fun p => vBytes.getD (p / 8) 0 &&& (1 <<< UInt8.ofNat (p % 8)) != 0

def serialize (t : CPartialMerkleTree) : Bytes :=
  serializeUInt32 t.nTransactions ++ serializeVector BaseBlob.data t.vHash ++
    serializeBytes (packBits t.vBits)

def unserialize : Read CPartialMerkleTree := do
  let nTransactions ← readUInt32
  let vHash ← readVector (readBlob 32)
  let vBytes ← readByteVector
  return ⟨nTransactions, unpackBits vBytes, vHash, false⟩

end Serialize

section RoundTrip

variable (vBits : List Bool)

lemma packByte_testBit (k : ℕ) {i : ℕ} (hi : i < 8) :
    (packByte vBits k &&& (1 <<< UInt8.ofNat i) != 0) = vBits.getD (8 * k + i) false := by
  have hbits : ∀ b₀ b₁ b₂ b₃ b₄ b₅ b₆ b₇ : Bool, ∀ j : Fin 8,
      ((List.range 8).foldl (fun byte i =>
          byte ||| (if [b₀, b₁, b₂, b₃, b₄, b₅, b₆, b₇].getD i false then 1 else 0) <<< UInt8.ofNat i) 0
        &&& (1 <<< UInt8.ofNat j) != (0 : UInt8)) =
        [b₀, b₁, b₂, b₃, b₄, b₅, b₆, b₇].getD j false := by
    decide
  have hall := hbits (vBits.getD (8 * k + 0) false) (vBits.getD (8 * k + 1) false)
    (vBits.getD (8 * k + 2) false) (vBits.getD (8 * k + 3) false) (vBits.getD (8 * k + 4) false)
    (vBits.getD (8 * k + 5) false) (vBits.getD (8 * k + 6) false) (vBits.getD (8 * k + 7) false) ⟨i, hi⟩
  interval_cases i <;> exact hall

lemma unpackBits_packBits : unpackBits (packBits vBits) =
    vBits ++ List.replicate ((vBits.length + 7) / 8 * 8 - vBits.length) false := by
  have hlen : (packBits vBits).length = (vBits.length + 7) / 8 := by simp [packBits]
  apply ext_getElem
  · simp [unpackBits, hlen]
    omega
  · intro p hp hp'
    have hp8 : p < (vBits.length + 7) / 8 * 8 := by simpa [unpackBits, hlen] using hp
    have hbyte : (packBits vBits).getD (p / 8) 0 = packByte vBits (p / 8) := by
      have hlt : p / 8 < (vBits.length + 7) / 8 := by omega
      simp [packBits, getD_eq_getElem?_getD, hlt]
    have hpos : 8 * (p / 8) + p % 8 = p := by omega
    simp only [unpackBits, getElem_map, getElem_range]
    rw [hbyte, packByte_testBit vBits (p / 8) (Nat.mod_lt p (by omega)), hpos,
      getD_eq_getElem?_getD, getElem_append]
    split_ifs with h
    · simp [h]
    · simp [getElem?_eq_none (not_lt.mp h)]

lemma reads_partialMerkleTree {t : CPartialMerkleTree} (hhash : t.vHash.length ≤ MAX_SIZE)
    (hbits : (t.vBits.length + 7) / 8 ≤ MAX_SIZE) :
    Reads unserialize t.serialize ⟨t.nTransactions,
      t.vBits ++ List.replicate ((t.vBits.length + 7) / 8 * 8 - t.vBits.length) false, t.vHash, false⟩ := by
  have hlen : (packBits t.vBits).length = (t.vBits.length + 7) / 8 := by simp [packBits]
  have hhashes : Reads (readVector (readBlob 32)) (serializeVector BaseBlob.data t.vHash) (t.vHash.map id) :=
    reads_vector hhash (fun a _ => reads_blob a)
  rw [map_id] at hhashes
  rw [← unpackBits_packBits]
  unfold serialize unserialize
  rw [append_assoc]
  refine (reads_uInt32 t.nTransactions).bind (hhashes.bind ?_)
  exact (reads_byteVector (hlen.symm ▸ hbits)).map
    (fun vBytes => (⟨t.nTransactions, unpackBits vBytes, t.vHash, false⟩ : CPartialMerkleTree))

end RoundTrip

section Extract

/-- What `TraverseAndExtract` changes. -/
structure ExtractState where
  nBitsUsed : ℕ
  nHashUsed : ℕ
  vMatch : List Uint256
  vnIndex : List ℕ
  fBad : Bool

variable (sha256 : Bytes → Uint256) (t : CPartialMerkleTree)

def takeHash (fMatched : Bool) (pos : ℕ) (st : ExtractState) : Uint256 × ExtractState :=
  match t.vHash[st.nHashUsed]? with
  | none => (BaseBlob.null 32, { st with fBad := true })
  | some hash =>
    let st := { st with nHashUsed := st.nHashUsed + 1 }
    (hash, if fMatched then { st with vMatch := st.vMatch ++ [hash], vnIndex := st.vnIndex ++ [pos] } else st)

def combine (left right : Uint256) (st : ExtractState) : Uint256 × ExtractState :=
  (merklePair sha256 left right, { st with fBad := st.fBad || decide (right = left) })

/-- `TraverseAndExtract`. -/
def traverseAndExtract : ℕ → ℕ → ExtractState → Uint256 × ExtractState
  | 0, pos, st =>
    match t.vBits[st.nBitsUsed]? with
    | none => (BaseBlob.null 32, { st with fBad := true })
    | some fParentOfMatch => takeHash t fParentOfMatch pos { st with nBitsUsed := st.nBitsUsed + 1 }
  | height + 1, pos, st =>
    match t.vBits[st.nBitsUsed]? with
    | none => (BaseBlob.null 32, { st with fBad := true })
    | some false => takeHash t false pos { st with nBitsUsed := st.nBitsUsed + 1 }
    | some true =>
      let left := traverseAndExtract height (pos * 2) { st with nBitsUsed := st.nBitsUsed + 1 }
      if pos * 2 + 1 < calcTreeWidth t.nTransactions.toNat height then
        let right := traverseAndExtract height (pos * 2 + 1) left.2
        combine sha256 left.1 right.1 right.2
      else (merklePair sha256 left.1 left.1, left.2)

/-- What `ExtractMatches` returns, with its output parameters and the member `fBad`. -/
structure Extracted where
  root : Uint256
  vMatch : List Uint256
  vnIndex : List ℕ
  fBad : Bool

def extractRoot (vnIndex : List ℕ) : Uint256 × ExtractState :=
  traverseAndExtract sha256 t (calcHeight t.nTransactions.toNat) 0 ⟨0, 0, [], vnIndex, t.fBad⟩

/-- `ExtractMatches`, which clears `vMatch` and appends to the `vnIndex` that it is given. -/
def extractMatches (vnIndex : List ℕ) : Extracted :=
  let nTransactions := t.nTransactions.toNat
  if nTransactions = 0 ∨ MAX_BLOCK_WEIGHT / MIN_TRANSACTION_WEIGHT < nTransactions ∨
      nTransactions < t.vHash.length ∨ t.vBits.length < t.vHash.length then
    ⟨BaseBlob.null 32, [], vnIndex, t.fBad⟩
  else
    let r := extractRoot sha256 t vnIndex
    let fails := r.2.fBad || (r.2.nBitsUsed + 7) / 8 != (t.vBits.length + 7) / 8 ||
      r.2.nHashUsed != t.vHash.length
    ⟨if fails then BaseBlob.null 32 else r.1, r.2.vMatch, r.2.vnIndex, r.2.fBad⟩

end Extract

end CPartialMerkleTree

end MutableBitcoin
