import MutableBitcoin.RedactHistory

/-!
# Rewriting a block in its file

`WriteUChangedBlockToDisk` writes the changed block over the old one, without a new record header.
The transaction index holds distances in the block.
-/

namespace MutableBitcoin
open Lib CChamHash List

def diskStream : SerStream := ⟨SER_DISK, CLIENT_VERSION⟩

/-- Writing at an offset of an open file: the bytes before it stay, the bytes behind the data stay,
and the file grows if the data does not fit. -/
def overwrite (file : Bytes) (pos : ℕ) (data : Bytes) : Bytes :=
  file.take pos ++ data ++ file.drop (pos + data.length)

section File

variable {sha256 : Bytes → Uint256}

def writeUChangedBlockToDisk (file : Bytes) (pos : ℕ) (block : CBlock sha256) : Bytes :=
  overwrite file pos (block.serialize diskStream)

/-- The offsets `vPos` that `ConnectBlock` collects for the transaction index. -/
def txOffsets (nTxOffset : ℕ) : List (CTransaction sha256) → List ℕ
  | [] => []
  | tx :: vtx =>
    nTxOffset :: txOffsets (nTxOffset + tx.getSerializeSize diskStream) vtx

def CBlock.txOffsets (block : CBlock sha256) : List ℕ :=
  MutableBitcoin.txOffsets (writeCompactSize block.vtx.length).length block.vtx

/-- The place where `GetTransaction` starts to read: behind the header at the block's position,
`nTxOffset` bytes further. -/
def txReadPos (pos nTxOffset : ℕ) : ℕ := pos + 112 + nTxOffset

end File

section Size

lemma length_writeCompactSize_mono {m n : ℕ} (h : m ≤ n) :
    (writeCompactSize m).length ≤ (writeCompactSize n).length := by
  unfold writeCompactSize
  split_ifs <;> simp <;> omega

lemma length_serializeBytes_lt {v w : Bytes} (h : v.length < w.length) :
    (serializeBytes v).length < (serializeBytes w).length := by
  have := length_writeCompactSize_mono h.le
  simp only [serializeBytes, length_append]
  omega

lemma length_redactedScript_eq_iff (op : RedactOp) {szO : ℕ} (h : 0 < szO) :
    (redactedScript op szO).length = szO ↔ 2 ≤ szO ∧ szO ≤ 77 := by
  refine ⟨?_, length_redactedScript op⟩
  intro hlen
  rw [redactedScript_eq] at hlen
  unfold CScript.pushData at hlen
  have h76 : Opcode.OP_PUSHDATA1.toNat = 76 := rfl
  split_ifs at hlen <;> simp [h76] at * <;> omega

lemma le_length_redactedScript (op : RedactOp) {szO : ℕ} :
    szO ≤ (redactedScript op szO).length := by
  rw [redactedScript_eq]
  unfold CScript.pushData
  split_ifs <;> simp <;> omega

lemma length_flatMap_modify {α : Type} (g : α → Bytes) (f : α → α) {l : List α} {k : ℕ} {a : α}
    (hk : l[k]? = some a) :
    ((l.modify k f).flatMap g).length + (g a).length =
      (l.flatMap g).length + (g (f a)).length := by
  induction l generalizing k with
  | nil => simp at hk
  | cons b l ih =>
    cases k with
    | zero =>
      obtain rfl : b = a := by simpa using hk
      simp
      omega
    | succ k =>
      have := ih (k := k) (by simpa using hk)
      simp only [modify_succ_cons, flatMap_cons, length_append]
      omega

variable {sha256 : Bytes → Uint256} {tx : CMutableTransaction} {k : ℕ}

lemma SameSkeleton.length_serialize {tx tx' : CMutableTransaction} (h : SameSkeleton tx tx')
    (s : SerStream) :
    (tx.serialize s).length + (tx'.vout.flatMap CTxOut.serialize).length =
      (tx'.serialize s).length + (tx.vout.flatMap CTxOut.serialize).length := by
  have hw : tx.hasWitness = tx'.hasWitness := by
    unfold CMutableTransaction.hasWitness
    rw [h.vin]
  unfold CMutableTransaction.serialize
  simp only [serializeVector, length_append, apply_ite List.length, BaseBlob.length_data, hw,
    h.vin, h.vout, h.nVersion, h.nLockTime]
  omega

lemma length_serialize_redactTo (sha256 : Bytes → Uint256) {txout : CTxOut} (hk : tx.vout[k]? = some txout) (h hs : ℤ)
    (op : RedactOp) (s : SerStream) :
    ((redactTo sha256 h hs op k tx).serialize s).length +
        (serializeBytes txout.scriptPubKey).length =
      (tx.serialize s).length +
        (serializeBytes (redactedScript op txout.scriptPubKey.length)).length := by
  have hsz : scriptSizeAt tx.vout k = txout.scriptPubKey.length := by simp [scriptSizeAt, hk]
  have hout := length_flatMap_modify CTxOut.serialize
    (fun o => { o with scriptPubKey := redactedScript op txout.scriptPubKey.length }) hk
  have hvout : (redactTo sha256 h hs op k tx).vout = tx.vout.modify k
      (fun o => { o with scriptPubKey := redactedScript op txout.scriptPubKey.length }) := by
    rw [← hsz]
    rfl
  have hser := (redactTo_sameSkeleton sha256 h hs op k tx).length_serialize s
  rw [hvout] at hser
  unfold CTxOut.serialize at hout hser
  simp only [length_append] at hout
  omega

lemma getSerializeSize_redactTo_iff {txout : CTxOut} (hk : tx.vout[k]? = some txout)
    (hpos : 0 < txout.scriptPubKey.length) (h hs : ℤ) (op : RedactOp) (s : SerStream) :
    (redactTo sha256 h hs op k tx).getSerializeSize s = tx.getSerializeSize s ↔
      2 ≤ txout.scriptPubKey.length ∧ txout.scriptPubKey.length ≤ 77 := by
  have hlen := length_serialize_redactTo sha256 hk h hs op s
  rw [← length_redactedScript_eq_iff op hpos]
  unfold CMutableTransaction.getSerializeSize
  constructor
  · intro heq
    by_contra hne
    have hlt : txout.scriptPubKey.length < (redactedScript op txout.scriptPubKey.length).length :=
      lt_of_le_of_ne (le_length_redactedScript op) (Ne.symm hne)
    have := length_serializeBytes_lt hlt
    omega
  · intro heq
    have : (serializeBytes (redactedScript op txout.scriptPubKey.length)).length =
        (serializeBytes txout.scriptPubKey).length := by
      simp only [serializeBytes, length_append, heq]
    omega

end Size

section Offsets

variable {sha256 : Bytes → Uint256}

lemma overwrite_of_length_eq (front old new behind : Bytes) (h : new.length = old.length) :
    overwrite (front ++ old ++ behind) front.length new = front ++ new ++ behind := by
  unfold overwrite
  have hdrop : front.length + new.length = (front ++ old).length := by simp [h]
  rw [hdrop, drop_left, append_assoc front old, take_left]

lemma txOffsets_congr {vtx vtx' : List (CTransaction sha256)}
    (h : vtx.map (fun tx => tx.getSerializeSize diskStream) =
      vtx'.map (fun tx => tx.getSerializeSize diskStream)) (n : ℕ) :
    txOffsets n vtx = txOffsets n vtx' := by
  induction vtx generalizing vtx' n with
  | nil =>
    obtain rfl : vtx' = [] := by simpa using h.symm
    rfl
  | cons tx vtx ih =>
    cases vtx' with
    | nil => simp at h
    | cons tx' vtx' =>
      simp only [map_cons, List.cons.injEq] at h
      simp only [txOffsets, h.1, ih h.2]

lemma isStart_of_txOffsets (vtx : List (CTransaction sha256)) (n : ℕ) {j off : ℕ}
    {tx : CTransaction sha256} (hj : vtx[j]? = some tx) (hoff : (txOffsets n vtx)[j]? = some off) :
    n ≤ off ∧ tx.serialize diskStream <+:
      (vtx.flatMap (fun tx => tx.toCMutableTransaction.serialize diskStream)).drop (off - n) := by
  induction vtx generalizing n j with
  | nil => simp at hj
  | cons t vtx ih =>
    cases j with
    | zero =>
      obtain rfl : t = tx := by simpa using hj
      obtain rfl : n = off := by simpa [txOffsets] using hoff
      simp
    | succ j =>
      obtain ⟨hle, hpre⟩ := ih (n + t.getSerializeSize diskStream) (by simpa using hj)
        (by simpa [txOffsets] using hoff)
      refine ⟨by omega, ?_⟩
      have hsplit : off - n = (t.serialize diskStream).length +
          (off - (n + t.getSerializeSize diskStream)) := by
        unfold CMutableTransaction.getSerializeSize at hle ⊢
        omega
      rw [flatMap_cons, hsplit, drop_length_add_append]
      exact hpre

lemma isStart_of_block (front behind : Bytes) (block : CBlock sha256) {j off : ℕ}
    {tx : CTransaction sha256} (hj : block.vtx[j]? = some tx)
    (hoff : block.txOffsets[j]? = some off) :
    tx.serialize diskStream <+:
      (front ++ block.serialize diskStream ++ behind).drop (txReadPos front.length off) := by
  obtain ⟨hle, hpre⟩ := isStart_of_txOffsets _ _ hj hoff
  have hsplit : txReadPos front.length off =
      (front ++ block.toCBlockHeader.serialize ++ writeCompactSize block.vtx.length).length +
        (off - (writeCompactSize block.vtx.length).length) := by
    simp only [txReadPos, length_append, CBlockHeader.length_serialize]
    omega
  have hbytes : front ++ block.serialize diskStream ++ behind =
      (front ++ block.toCBlockHeader.serialize ++ writeCompactSize block.vtx.length) ++
        (block.vtx.flatMap (fun tx => tx.toCMutableTransaction.serialize diskStream) ++ behind) := by
    simp [CBlock.serialize, serializeVector]
  rw [hbytes, hsplit, drop_length_add_append, drop_append]
  exact hpre.trans (prefix_append _ _)

end Offsets

section InPlace

variable {sha256 : Bytes → Uint256}

/-- The rewrite of `block` to `block'` in a file: the transaction keeps its size, exactly the bytes
of the block are replaced, and the old offsets lead to the transactions of the new block. -/
structure RewrittenInPlace (oldTX newTX : CTransaction sha256) (front behind : Bytes)
    (block block' : CBlock sha256) : Prop where
  size : ∀ s, newTX.getSerializeSize s = oldTX.getSerializeSize s
  bytes : writeUChangedBlockToDisk (front ++ block.serialize diskStream ++ behind) front.length
    block' = front ++ block'.serialize diskStream ++ behind
  offsets : ∀ (j off : ℕ) (tx : CTransaction sha256), block'.vtx[j]? = some tx → block.txOffsets[j]? = some off →
    tx.serialize diskStream <+:
      (writeUChangedBlockToDisk (front ++ block.serialize diskStream ++ behind) front.length
        block').drop (txReadPos front.length off)

variable {oldTX newTX : CTransaction sha256} {block block' : CBlock sha256} {i : ℕ}

lemma replaceTransaction_eq (hi : block.vtx.findIdx? (fun tx => tx.hash = oldTX.hash) = some i) :
    block.replaceTransaction oldTX.hash newTX =
      some { block with vtx := block.vtx.set i newTX } := by
  simp [CBlock.replaceTransaction, hi]

lemma map_set_eq {β : Type} (f : CTransaction sha256 → β) {vtx : List (CTransaction sha256)}
    (hold : vtx[i]? = some oldTX) (hf : f newTX = f oldTX) :
    (vtx.set i newTX).map f = vtx.map f := by
  rw [map_set, hf]
  obtain ⟨hlt, rfl⟩ := List.getElem?_eq_some_iff.mp hold
  apply ext_getElem (by simp)
  intro n h₁ h₂
  by_cases hn : i = n
  · subst hn
    simp
  · simp [hn]

lemma rewrittenInPlace_of_size (front behind : Bytes) (hold : block.vtx[i]? = some oldTX)
    (hsize : ∀ s, newTX.getSerializeSize s = oldTX.getSerializeSize s) :
    RewrittenInPlace oldTX newTX front behind block { block with vtx := block.vtx.set i newTX } := by
  have hmap := map_set_eq (fun tx => tx.getSerializeSize diskStream) hold (hsize diskStream)
  have hlen : (CBlock.serialize diskStream { block with vtx := block.vtx.set i newTX }).length =
      (block.serialize diskStream).length := by
    have hsum := congrArg List.sum hmap
    unfold CMutableTransaction.getSerializeSize at hsum
    simp only [CBlock.serialize, serializeVector, length_append, length_flatMap,
      length_set, hsum]
  have hbytes : writeUChangedBlockToDisk (front ++ block.serialize diskStream ++ behind)
      front.length { block with vtx := block.vtx.set i newTX } =
      front ++ CBlock.serialize diskStream { block with vtx := block.vtx.set i newTX } ++ behind :=
    overwrite_of_length_eq _ _ _ _ hlen
  have hoffsets : CBlock.txOffsets { block with vtx := block.vtx.set i newTX } = block.txOffsets := by
    unfold CBlock.txOffsets
    rw [length_set]
    exact txOffsets_congr hmap _
  refine ⟨hsize, hbytes, ?_⟩
  intro j off tx hj hoff
  rw [hbytes]
  exact isStart_of_block front behind _ hj (by rw [hoffsets]; exact hoff)

/-- Redaction rewrites a block in place exactly for scripts of 2 to 77 bytes. -/
theorem redact_rewrittenInPlace_iff (sha256 : Bytes → Uint256) (op : RedactOp)
    (oldTX newTX : CTransaction sha256) (block : CBlock sha256) (i k : ℕ) (txout : CTxOut)
    (front behind : Bytes)
    (hi : block.vtx.findIdx? (fun tx => tx.hash = oldTX.hash) = some i)
    (hold : block.vtx[i]? = some oldTX)
    (hk : firstOpReturn oldTX.vout = some k) (htxout : oldTX.vout[k]? = some txout)
    (hred : redact sha256 op oldTX.toCMutableTransaction = some newTX.toCMutableTransaction) :
    ∃ block', block.replaceTransaction oldTX.hash newTX = some block' ∧
      (RewrittenInPlace oldTX newTX front behind block block' ↔
        2 ≤ txout.scriptPubKey.length ∧ txout.scriptPubKey.length ≤ 77) := by
  have hpos : 0 < txout.scriptPubKey.length := by
    unfold firstOpReturn at hk
    obtain ⟨hlt, hop, -⟩ := findIdx?_eq_some_iff_getElem.mp hk
    obtain rfl : oldTX.vout[k] = txout := by
      simpa [getElem?_eq_getElem hlt] using htxout
    unfold isOpReturn at hop
    cases hs : oldTX.vout[k].scriptPubKey with
    | nil => simp [hs] at hop
    | cons => simp
  have hbelow : oldTX.RandomnessBelow :=
    randomnessBelow_of_redactAt ((redact_eq_redactAt op hk).symm.trans hred)
  have hnew := hred.symm.trans (redact_eq hbelow op hk)
  rw [Option.some_inj] at hnew
  have hiff : ∀ s, newTX.getSerializeSize s = oldTX.getSerializeSize s ↔
      2 ≤ txout.scriptPubKey.length ∧ txout.scriptPubKey.length ≤ 77 := by
    intro s
    rw [hnew]
    exact getSerializeSize_redactTo_iff htxout hpos _ _ _ _
  refine ⟨_, replaceTransaction_eq hi, ?_, ?_⟩
  · intro h
    exact (hiff diskStream).mp (h.size diskStream)
  · intro h
    exact rewrittenInPlace_of_size front behind hold (fun s => (hiff s).mpr h)

def makeTransaction (sha256 : Bytes → Uint256) (tx : CMutableTransaction) (h : tx.RandomnessBelow) :
    CTransaction sha256 :=
  ⟨tx, valueHash sha256 (strippedValue sha256 tx), computeHash_eq h.rValue h.sValue⟩

def dataTransactionRef (scriptPubKey : CScript) : CTransaction cSHA256 :=
  makeTransaction cSHA256 (dataTransaction scriptPubKey []) (dataTransaction_randomnessBelow _ _)

def dataBlock (scriptPubKey : CScript) : CBlock cSHA256 where
  nVersion := 4
  hashPrevBlock := BaseBlob.null 32
  hashMerkleRoot := BaseBlob.null 32
  nTime := 0
  nBits := 0
  nNonce := 0
  hashUChainVersion := BaseBlob.null 32
  vtx := [dataTransactionRef scriptPubKey]
  fChecked := false

lemma findIdx_dataBlock (scriptPubKey : CScript) :
    (dataBlock scriptPubKey).vtx.findIdx?
      (fun tx => tx.hash = (dataTransactionRef scriptPubKey).hash) = some 0 := by
  simp [dataBlock]

def redactedData (op : RedactOp) (scriptPubKey : CScript) : CTransaction cSHA256 :=
  let tx := dataTransaction scriptPubKey []
  let h := dataTransaction_randomnessBelow scriptPubKey []
  makeTransaction cSHA256 (redactTo cSHA256 (idValue cSHA256 tx) (outputsValue cSHA256 tx) op 0 tx)
    (redactTo_randomnessBelow _ _ _ _ (idValue_bounds _ h) (outputsValue_bounds _ h))

lemma redact_dataTransactionRef (op : RedactOp) {scriptPubKey : CScript}
    (h : isOpReturn scriptPubKey = true) :
    redact cSHA256 op (dataTransactionRef scriptPubKey).toCMutableTransaction =
      some (redactedData op scriptPubKey).toCMutableTransaction := by
  refine redact_eq (dataTransaction_randomnessBelow scriptPubKey []) op ?_
  simp [firstOpReturn, dataTransaction, h]

theorem redact_rewrittenInPlace_iff_dataBlock :
    ∃ block', (dataBlock dataScript).replaceTransaction (dataTransactionRef dataScript).hash
        (redactedData .hide dataScript) = some block' ∧
      (RewrittenInPlace (dataTransactionRef dataScript) (redactedData .hide dataScript) [0xf9] [0xbe]
          (dataBlock dataScript) block' ↔
        2 ≤ dataScript.length ∧ dataScript.length ≤ 77) :=
  redact_rewrittenInPlace_iff cSHA256 .hide _ _ (dataBlock dataScript) 0 0 ⟨0, dataScript⟩ _ _
    (findIdx_dataBlock dataScript) rfl rfl rfl (redact_dataTransactionRef .hide rfl)

/-- The largest data output that nodes relay, 80 bytes behind `OP_PUSHDATA1`. -/
def carrierScript : CScript :=
  [Opcode.OP_RETURN, Opcode.OP_PUSHDATA1, 80] ++ List.replicate 80 0x58

theorem redact_carrier_not_inPlace :
    redact cSHA256 .hide (dataTransactionRef carrierScript).toCMutableTransaction =
      some (redactedData .hide carrierScript).toCMutableTransaction ∧
    ∃ block', (dataBlock carrierScript).replaceTransaction (dataTransactionRef carrierScript).hash
        (redactedData .hide carrierScript) = some block' ∧
      ∀ front behind, ¬ RewrittenInPlace (dataTransactionRef carrierScript)
        (redactedData .hide carrierScript) front behind (dataBlock carrierScript) block' := by
  refine ⟨redact_dataTransactionRef .hide rfl, _, replaceTransaction_eq (findIdx_dataBlock _), ?_⟩
  intro front behind h
  have hk : (dataTransaction carrierScript []).vout[0]? = some ⟨0, carrierScript⟩ := rfl
  have hsize := (getSerializeSize_redactTo_iff hk (by decide) _ _ _ _).mp (h.size diskStream)
  exact absurd hsize (by decide)

end InPlace

end MutableBitcoin
