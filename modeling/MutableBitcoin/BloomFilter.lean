import MutableBitcoin.Interpreter
import MutableBitcoin.Standard
import MutableBitcoin.VerifyTxOutProof
import MutableBitcoin.Lib.BitTable

/-!
# Bloom filters of peers

`CBloomFilter` of `bloom.cpp`, the messages of `net_processing.cpp` that set the filter of a peer and the scan
of a block by `CMerkleBlock`. A call has no result where it would divide by zero or leave the table.
-/

namespace MutableBitcoin
open Lib List Bool

/-! ### The hash -/

def ROTL32 (x r : UInt32) : UInt32 := (x <<< r) ||| (x >>> (32 - r))

/-- The mixing of one word into `k1`. -/
def murmurWord (k1 : UInt32) : UInt32 := ROTL32 (k1 * 0xcc9e2d51) 15 * 0x1b873593

def murmurBlock (h1 k1 : UInt32) : UInt32 := ROTL32 (h1 ^^^ murmurWord k1) 13 * 5 + 0xe6546b64

/-- The last one to three bytes, each case of the `switch` going on with the next. -/
def murmurTail (tail : Bytes) (h1 : UInt32) : UInt32 :=
  let byte (i : ℕ) : UInt32 := (tail.getD i 0).toUInt32
  match tail.length % 4 with
  | 3 => h1 ^^^ murmurWord ((byte 2 <<< 16) ^^^ (byte 1 <<< 8) ^^^ byte 0)
  | 2 => h1 ^^^ murmurWord ((byte 1 <<< 8) ^^^ byte 0)
  | 1 => h1 ^^^ murmurWord (byte 0)
  | _ => h1

def murmurFinal (h1 : UInt32) : UInt32 :=
  let h1 := (h1 ^^^ (h1 >>> 16)) * 0x85ebca6b
  let h1 := (h1 ^^^ (h1 >>> 13)) * 0xc2b2ae35
  h1 ^^^ (h1 >>> 16)

/-- `MurmurHash3` of `hash.cpp`. -/
def murmurHash3 (nHashSeed : UInt32) (vDataToHash : Bytes) : UInt32 :=
  let nblocks := vDataToHash.length / 4
  let block (i : ℕ) : UInt32 := UInt32.ofNat (leValue ((vDataToHash.drop (i * 4)).take 4))
  let h1 := (List.range nblocks).foldl (fun h1 i => murmurBlock h1 (block i)) nHashSeed
  murmurFinal (murmurTail (vDataToHash.drop (nblocks * 4)) h1 ^^^ UInt32.ofNat vDataToHash.length)

example : murmurHash3 0 [0x00, 0x11, 0x22, 0x33, 0x44, 0x55, 0x66] = 0xb074502c := by decide +kernel

/-! ### The filter -/

def MAX_BLOOM_FILTER_SIZE : ℕ := 36000
def MAX_HASH_FUNCS : UInt32 := 50

def BLOOM_UPDATE_ALL : UInt8 := 1
def BLOOM_UPDATE_P2PUBKEY_ONLY : UInt8 := 2
def BLOOM_UPDATE_MASK : UInt8 := 3

/-- A filter, with the two flags that shortcut it. -/
structure CBloomFilter where
  vData : Bytes
  isFull : Bool
  isEmpty : Bool
  nHashFuncs : UInt32
  nTweak : UInt32
  nFlags : UInt8

namespace CBloomFilter

def default : CBloomFilter := ⟨[], true, false, 0, 0, 0⟩

/-- `Hash`, for a table `vData`. -/
def hash (nTweak : UInt32) (vData : Bytes) (nHashNum : ℕ) (vDataToHash : Bytes) : Option ℕ :=
  if vData.length * 8 = 0 then none
  else some ((murmurHash3 (UInt32.ofNat nHashNum * 0xFBA4C795 + nTweak) vDataToHash).toNat % (vData.length * 8))

/-- `vData[nIndex >> 3] & (1 << (7 & nIndex))`. -/
def checkBit (vData : Bytes) (nIndex : ℕ) : Option Bool := do
  let b ← vData[nIndex >>> 3]?
  return b &&& (1 <<< UInt8.ofNat (7 &&& nIndex)) != 0

def setBit (vData : Bytes) (nIndex : ℕ) : Option Bytes := do
  let b ← vData[nIndex >>> 3]?
  return vData.set (nIndex >>> 3) (b ||| (1 <<< UInt8.ofNat (7 &&& nIndex)))

/-- The loop of `insert` over the numbers of the hash functions. -/
def insertLoop (nTweak : UInt32) (vKey : Bytes) : List ℕ → Bytes → Option Bytes
  | [], vData => some vData
  | i :: is, vData => do
    let nIndex ← hash nTweak vData i vKey
    let vData ← setBit vData nIndex
    insertLoop nTweak vKey is vData

def insert (f : CBloomFilter) (vKey : Bytes) : Option CBloomFilter :=
  if f.isFull then some f
  else do
    let vData ← insertLoop f.nTweak vKey (List.range f.nHashFuncs.toNat) f.vData
    return { f with vData := vData, isEmpty := false }

/-- The loop of `contains`. -/
def containsLoop (nTweak : UInt32) (vKey vData : Bytes) : List ℕ → Option Bool
  | [] => some true
  | i :: is => do
    let nIndex ← hash nTweak vData i vKey
    let bit ← checkBit vData nIndex
    if !bit then return false else containsLoop nTweak vKey vData is

def contains (f : CBloomFilter) (vKey : Bytes) : Option Bool :=
  if f.isFull then some true
  else if f.isEmpty then some false
  else containsLoop f.nTweak vKey f.vData (List.range f.nHashFuncs.toNat)

def isWithinSizeConstraints (f : CBloomFilter) : Bool :=
  f.vData.length ≤ MAX_BLOOM_FILTER_SIZE && f.nHashFuncs ≤ MAX_HASH_FUNCS

def updateEmptyFull (f : CBloomFilter) : CBloomFilter :=
  { f with isFull := f.vData.all (· == 0xff), isEmpty := f.vData.all (· == 0) }

/-- The fields that are serialized; the flags are those of the constructor. -/
def unserialize : Read CBloomFilter := do
  let vData ← readByteVector
  let nHashFuncs ← readUInt32
  let nTweak ← readUInt32
  let nFlags ← readUInt8
  return ⟨vData, default.isFull, default.isEmpty, nHashFuncs, nTweak, nFlags⟩

/-! ### Transactions -/

/-- The loop over the operations of a script: `data.size() != 0 && contains(data)`. -/
def containsElement (f : CBloomFilter) : List CScript.GetOpResult → Option Bool
  | [] => some false
  | r :: ops =>
    if r.vchRet.length ≠ 0 then do
      let found ← f.contains r.vchRet
      if found then return true else containsElement f ops
    else containsElement f ops

def updates (f : CBloomFilter) (scriptPubKey : CScript) : Bool :=
  if f.nFlags &&& BLOOM_UPDATE_MASK = BLOOM_UPDATE_ALL then true
  else if f.nFlags &&& BLOOM_UPDATE_MASK = BLOOM_UPDATE_P2PUBKEY_ONLY then
    let r := solver scriptPubKey .TX_NONSTANDARD
    r.ok && (r.typeRet == .TX_PUBKEY || r.typeRet == .TX_MULTISIG)
  else false

/-- `fFound` and the filter. What has been inserted is noted beside them, and no call reads it. -/
structure Relevance where
  fFound : Bool
  filter : CBloomFilter
  inserted : List Bytes

def matchOutput (hash : Uint256) (i : ℕ) (txout : CTxOut) (s : Relevance) : Option Relevance :=
  if s.filter.updates txout.scriptPubKey then do
    let outpoint := (COutPoint.mk hash (UInt32.ofNat i)).serialize
    let filter ← s.filter.insert outpoint
    return ⟨true, filter, s.inserted ++ [outpoint]⟩
  else some { s with fFound := true }

def scanOutput (hash : Uint256) (i : ℕ) (txout : CTxOut) (s : Relevance) : Option Relevance := do
  let found ← s.filter.containsElement (CScript.scan txout.scriptPubKey).ops
  if found then matchOutput hash i txout s else return s

def scanOutputs (hash : Uint256) : ℕ → List CTxOut → Relevance → Option Relevance
  | _, [], s => some s
  | i, txout :: vout, s => do
    let s ← scanOutput hash i txout s
    scanOutputs hash (i + 1) vout s

/-- The scan of the inputs in `IsRelevantAndUpdate`. -/
def containsInput (f : CBloomFilter) : List CTxIn → Option Bool
  | [] => some false
  | txin :: vin => do
    let found ← f.contains txin.prevout.serialize
    if found then return true
    else do
      let found ← f.containsElement (CScript.scan txin.scriptSig).ops
      if found then return true else containsInput f vin

def scanInputs (vin : List CTxIn) (s : Relevance) : Option Relevance :=
  if s.fFound then some s
  else do
    let found ← s.filter.containsInput vin
    return { s with fFound := found }

variable {sha256 : Bytes → Uint256}

/-- `CBloomFilter::IsRelevantAndUpdate`. -/
def isRelevantAndUpdate (f : CBloomFilter) (tx : CTransaction sha256) : Option Relevance :=
  if f.isFull then some ⟨true, f, []⟩
  else if f.isEmpty then some ⟨false, f, []⟩
  else do
    let found ← f.contains tx.hash.data
    let s ← scanOutputs tx.hash 0 tx.vout ⟨found, f, []⟩
    scanInputs tx.vin s

end CBloomFilter

/-! ### The messages -/

def NO_BLOOM_VERSION : ℕ := 70011

/-- What the messages change of a peer. -/
structure FilterPeer where
  pfilter : Option CBloomFilter
  fRelayTxes : Bool
  fDisconnect : Bool
  nMisbehavior : ℕ

namespace FilterPeer

/-- The messages that set a filter. -/
inductive Message where
  | filterload (vRecv : Bytes)
  | filteradd (vRecv : Bytes)
  | filterclear

def misbehaving (peer : FilterPeer) (howmuch : ℕ) : FilterPeer :=
  { peer with nMisbehavior := peer.nMisbehavior + howmuch }

def filterload (peer : FilterPeer) (filter : CBloomFilter) : FilterPeer :=
  if !filter.isWithinSizeConstraints then peer.misbehaving 100
  else { peer with pfilter := some filter.updateEmptyFull, fRelayTxes := true }

def filteradd (peer : FilterPeer) (vData : Bytes) : Option FilterPeer :=
  if MAX_SCRIPT_ELEMENT_SIZE < vData.length then some (peer.misbehaving 100)
  else
    match peer.pfilter with
    | some pfilter => do
      let pfilter ← pfilter.insert vData
      return { peer with pfilter := some pfilter }
    | none => some (peer.misbehaving 100)

def filterclear (nodeBloom : Bool) (peer : FilterPeer) : FilterPeer :=
  if nodeBloom then { peer with pfilter := some .default, fRelayTxes := true } else { peer with fRelayTxes := true }

def refuse (nVersion : ℕ) (peer : FilterPeer) : FilterPeer :=
  if NO_BLOOM_VERSION ≤ nVersion then peer.misbehaving 100 else { peer with fDisconnect := true }

/-- `ProcessMessage`. A message that does not deserialize throws before it changes anything. -/
def processMessage (nodeBloom : Bool) (nVersion : ℕ) (peer : FilterPeer) : Message → Option FilterPeer
  | .filterload vRecv =>
    if !nodeBloom then some (peer.refuse nVersion)
    else
      match CBloomFilter.unserialize vRecv with
      | .ok (filter, _) => some (peer.filterload filter)
      | .error _ => some peer
  | .filteradd vRecv =>
    if !nodeBloom then some (peer.refuse nVersion)
    else
      match readByteVector vRecv with
      | .ok (vData, _) => peer.filteradd vData
      | .error _ => some peer
  | .filterclear => some (peer.filterclear nodeBloom)

end FilterPeer

/-! ### The scan of a block -/

section

variable {sha256 : Bytes → Uint256}

/-- The variables of the scan of a block. -/
structure BlockScan where
  vMatch : List Bool
  vMatchedTxn : List (ℕ × Uint256)
  filter : CBloomFilter

def scanTransactions : ℕ → List (CTransaction sha256) → CBloomFilter → Option BlockScan
  | _, [], filter => some ⟨[], [], filter⟩
  | i, tx :: vtx, filter => do
    let s ← filter.isRelevantAndUpdate tx
    let rest ← scanTransactions (i + 1) vtx s.filter
    return ⟨s.fFound :: rest.vMatch, if s.fFound then (i, tx.hash) :: rest.vMatchedTxn else rest.vMatchedTxn, rest.filter⟩

/-- A filtered block, with the filter that the scan leaves. -/
structure FilteredBlock where
  merkleBlock : CMerkleBlock
  vMatchedTxn : List (ℕ × Uint256)
  filter : CBloomFilter

/-- The constructor of `CMerkleBlock`. For a block without transactions the tree reads behind the end of its
hashes. -/
def filterBlock (block : CBlock sha256) (filter : CBloomFilter) : Option FilteredBlock := do
  let s ← scanTransactions 0 block.vtx filter
  if block.vtx.isEmpty then none
  else
    let vHashes := block.vtx.map fun tx => tx.hash
    return ⟨⟨block.toCBlockHeader, .build sha256 vHashes s.vMatch⟩, s.vMatchedTxn, s.filter⟩

end

/-!
## What a filter contains

The positions of a key are what its hashes point at.
-/

namespace CBloomFilter

/-! ### Bits -/

lemma and_seven (n : ℕ) : 7 &&& n = n % 8 := by
  rw [Nat.and_comm]
  exact Nat.and_two_pow_sub_one_eq_mod n 3

lemma checkBit_eq {vData : Bytes} {n : ℕ} (hn : n < vData.length * 8) :
    ∃ b, checkBit vData n = some b ∧ (b = true ↔ n ∈ bitsOf vData) := by
  have hget : vData[n / 8]? = some vData[n / 8] := getElem?_eq_getElem (by omega)
  refine ⟨vData[n / 8] &&& bitMask n != 0, ?_, ?_⟩
  · rw [checkBit, Nat.shiftRight_eq_div_pow, and_seven, hget]
    rfl
  · rw [mem_bitsOf hget, bne_iff_ne]

lemma setBit_eq {vData : Bytes} {n : ℕ} (hn : n < vData.length * 8) :
    ∃ vData', setBit vData n = some vData' ∧ vData'.length = vData.length ∧ bitsOf vData' = Insert.insert n (bitsOf vData) := by
  have hget : vData[n / 8]? = some vData[n / 8] := getElem?_eq_getElem (by omega)
  refine ⟨vData.set (n / 8) (vData[n / 8] ||| bitMask n), ?_, length_set, bitsOf_set hget⟩
  rw [setBit, Nat.shiftRight_eq_div_pow, and_seven, hget]
  rfl

/-! ### Keys -/

/-- The position in a table with `size` bits that a hash points at. -/
def position (nTweak : UInt32) (size nHashNum : ℕ) (vKey : Bytes) : ℕ :=
  (murmurHash3 (UInt32.ofNat nHashNum * 0xFBA4C795 + nTweak) vKey).toNat % size

lemma hash_eq {nTweak : UInt32} {vData vKey : Bytes} (hne : vData ≠ []) (i : ℕ) :
    hash nTweak vData i vKey = some (position nTweak (vData.length * 8) i vKey) ∧
      position nTweak (vData.length * 8) i vKey < vData.length * 8 := by
  have hpos : 0 < vData.length := length_pos_of_ne_nil hne
  exact ⟨if_neg (by omega), Nat.mod_lt _ (by omega)⟩

lemma insertLoop_eq {nTweak : UInt32} {vKey : Bytes} (is : List ℕ) {vData : Bytes} (hne : vData ≠ []) :
    ∃ vData', insertLoop nTweak vKey is vData = some vData' ∧ vData'.length = vData.length ∧
      bitsOf vData' = bitsOf vData ∪ {n | ∃ i ∈ is, n = position nTweak (vData.length * 8) i vKey} := by
  induction is generalizing vData with
  | nil => exact ⟨vData, rfl, rfl, by simp⟩
  | cons i is ih =>
    obtain ⟨hhash, hlt⟩ := @hash_eq nTweak vData vKey hne i
    obtain ⟨vData₁, hset, hlength, hbits⟩ := setBit_eq hlt
    have hne₁ : vData₁ ≠ [] := by
      refine ne_nil_of_length_pos ?_
      rw [hlength]
      exact length_pos_of_ne_nil hne
    obtain ⟨vData₂, hloop, hlength₂, hbits₂⟩ := ih hne₁
    refine ⟨vData₂, ?_, hlength₂.trans hlength, ?_⟩
    · rw [insertLoop, hhash]
      dsimp only [bind, Option.bind]
      rw [hset]
      exact hloop
    · rw [hbits₂, hbits, hlength]
      ext n
      simp only [Set.mem_union, Set.mem_insert_iff, Set.mem_ofPred_eq, mem_cons]
      constructor
      · rintro ((rfl | hn) | ⟨j, hj, rfl⟩)
        · exact Or.inr ⟨i, Or.inl rfl, rfl⟩
        · exact Or.inl hn
        · exact Or.inr ⟨j, Or.inr hj, rfl⟩
      · rintro (hn | ⟨j, rfl | hj, rfl⟩)
        · exact Or.inl (Or.inr hn)
        · exact Or.inl (Or.inl rfl)
        · exact Or.inr ⟨j, hj, rfl⟩

lemma containsLoop_eq {nTweak : UInt32} {vKey vData : Bytes} (hne : vData ≠ []) (is : List ℕ) :
    ∃ b, containsLoop nTweak vKey vData is = some b ∧
      (b = true ↔ ∀ i ∈ is, position nTweak (vData.length * 8) i vKey ∈ bitsOf vData) := by
  induction is with
  | nil => exact ⟨true, rfl, by simp⟩
  | cons i is ih =>
    obtain ⟨hhash, hlt⟩ := @hash_eq nTweak vData vKey hne i
    obtain ⟨bit, hbit, hmem⟩ := checkBit_eq hlt
    obtain ⟨b, hloop, hb⟩ := ih
    rw [containsLoop, hhash]
    dsimp only [bind, Option.bind]
    rw [hbit, forall_mem_cons, ← hmem]
    cases bit with
    | false => exact ⟨false, rfl, by simp⟩
    | true => exact ⟨b, hloop, by rw [hb]; simp⟩

/-! ### Filters -/

/-- The calls divide by no zero and stay inside the table. -/
def Safe (f : CBloomFilter) : Prop := f.isFull = true ∨ f.vData ≠ []

/-- All bits of the key are set. -/
def HasBits (f : CBloomFilter) (vKey : Bytes) : Prop :=
  ∀ i < f.nHashFuncs.toNat, ∃ nIndex, hash f.nTweak f.vData i vKey = some nIndex ∧ checkBit f.vData nIndex = some true

/-- The filter contains the key. -/
def Holds (f : CBloomFilter) (vKey : Bytes) : Prop :=
  f.isFull = true ∨ (f.isEmpty = false ∧
    ∀ i < f.nHashFuncs.toNat, position f.nTweak (f.vData.length * 8) i vKey ∈ bitsOf f.vData)

lemma contains_eq {f : CBloomFilter} (hsafe : f.Safe) (vKey : Bytes) :
    ∃ b, f.contains vKey = some b ∧ (b = true ↔ f.Holds vKey) := by
  unfold contains Holds
  cases hfull : f.isFull with
  | true => exact ⟨true, rfl, by simp⟩
  | false =>
    have hne : f.vData ≠ [] := hsafe.resolve_left (by rw [hfull]; exact false_ne_true)
    rw [if_neg Bool.false_ne_true, or_iff_right Bool.false_ne_true]
    cases hempty : f.isEmpty with
    | true => exact ⟨false, rfl, by simp⟩
    | false =>
      obtain ⟨b, hloop, hb⟩ := @containsLoop_eq f.nTweak vKey f.vData hne (List.range f.nHashFuncs.toNat)
      rw [if_neg Bool.false_ne_true]
      refine ⟨b, hloop, hb.trans ?_⟩
      rw [and_iff_right rfl]
      exact forall_congr' fun i => by rw [mem_range]

lemma contains_iff {f : CBloomFilter} (hsafe : f.Safe) (vKey : Bytes) : f.contains vKey = some true ↔ f.Holds vKey := by
  obtain ⟨b, hrun, hb⟩ := contains_eq hsafe vKey
  rw [hrun, Option.some.injEq, hb]

/-- The second filter contains what the first contains. -/
structure Grows (f f' : CBloomFilter) : Prop where
  isFull : f'.isFull = f.isFull
  isEmpty : f.isEmpty = false → f'.isEmpty = false
  nHashFuncs : f'.nHashFuncs = f.nHashFuncs
  nTweak : f'.nTweak = f.nTweak
  nFlags : f'.nFlags = f.nFlags
  length_vData : f'.vData.length = f.vData.length
  bits : bitsOf f.vData ⊆ bitsOf f'.vData

namespace Grows

variable {f f' f'' : CBloomFilter}

lemma refl (f : CBloomFilter) : f.Grows f := ⟨rfl, id, rfl, rfl, rfl, rfl, subset_rfl⟩

lemma trans (h : f.Grows f') (h' : f'.Grows f'') : f.Grows f'' where
  isFull := h'.isFull.trans h.isFull
  isEmpty := fun hempty => h'.isEmpty (h.isEmpty hempty)
  nHashFuncs := h'.nHashFuncs.trans h.nHashFuncs
  nTweak := h'.nTweak.trans h.nTweak
  nFlags := h'.nFlags.trans h.nFlags
  length_vData := h'.length_vData.trans h.length_vData
  bits := h.bits.trans h'.bits

lemma safe (h : f.Grows f') (hsafe : f.Safe) : f'.Safe := by
  refine hsafe.imp (fun hfull => h.isFull.trans hfull) fun hne => ne_nil_of_length_pos ?_
  rw [h.length_vData]
  exact length_pos_of_ne_nil hne

lemma holds (h : f.Grows f') {vKey : Bytes} (hholds : f.Holds vKey) : f'.Holds vKey := by
  refine hholds.imp (fun hfull => h.isFull.trans hfull) fun ⟨hempty, hbits⟩ => ⟨h.isEmpty hempty, fun i hi => ?_⟩
  rw [h.nTweak, h.length_vData]
  exact h.bits (hbits i (h.nHashFuncs ▸ hi))

end Grows

lemma insert_eq {f : CBloomFilter} (hsafe : f.Safe) (vKey : Bytes) :
    ∃ f', f.insert vKey = some f' ∧ f.Grows f' ∧ f'.Holds vKey := by
  unfold insert
  cases hfull : f.isFull with
  | true => exact ⟨f, rfl, .refl f, Or.inl hfull⟩
  | false =>
    have hne : f.vData ≠ [] := hsafe.resolve_left (by rw [hfull]; exact false_ne_true)
    obtain ⟨vData', hloop, hlength, hbits⟩ := @insertLoop_eq f.nTweak vKey (List.range f.nHashFuncs.toNat) f.vData hne
    rw [if_neg Bool.false_ne_true, hloop]
    refine ⟨_, rfl, ⟨hfull.symm, fun _ => rfl, rfl, rfl, rfl, hlength, ?_⟩, Or.inr ⟨rfl, fun i hi => ?_⟩⟩
    · change bitsOf f.vData ⊆ bitsOf vData'
      rw [hbits]
      exact Set.subset_union_left
    · change position f.nTweak (vData'.length * 8) i vKey ∈ bitsOf vData'
      rw [hbits, hlength]
      exact Or.inr ⟨i, mem_range.mpr hi, rfl⟩

/-! ### Loaded filters -/

lemma safe_default : default.Safe := Or.inl rfl

lemma holds_default (vKey : Bytes) : default.Holds vKey := Or.inl rfl

lemma safe_updateEmptyFull (f : CBloomFilter) : f.updateEmptyFull.Safe := by
  by_cases hne : f.vData = []
  · refine Or.inl ?_
    change f.vData.all (· == 0xff) = true
    rw [hne]
    rfl
  · exact Or.inr hne

lemma holds_of_hasBits {f : CBloomFilter} (hbit : ∃ b ∈ f.vData, b ≠ 0) {vKey : Bytes}
    (hbits : f.updateEmptyFull.HasBits vKey) : f.updateEmptyFull.Holds vKey := by
  refine Or.inr ⟨?_, fun i hi => ?_⟩
  · change f.vData.all (· == 0) = false
    obtain ⟨b, hb, hne⟩ := hbit
    exact all_eq_false.mpr ⟨b, hb, by simpa using hne⟩
  · obtain ⟨b, hb, -⟩ := hbit
    obtain ⟨nIndex, hhash, hcheck⟩ := hbits i hi
    obtain ⟨heq, hlt⟩ := @hash_eq f.nTweak f.vData vKey (ne_nil_of_mem hb) i
    obtain rfl := Option.some.inj (heq.symm.trans hhash)
    obtain ⟨c, hc, hmem⟩ := checkBit_eq hlt
    exact hmem.mp (Option.some.inj (hc.symm.trans hcheck))

end CBloomFilter

end MutableBitcoin
