import MutableBitcoin.CompactSafety
import MutableBitcoin.ConnectSafety

/-!
# Reconstruction of a block from its compact message

The message of a block has the coinbase and the short ids of the other transactions. If no foreign
transaction has one of these ids, the block is reconstructed.
-/

namespace MutableBitcoin
open Lib List CBlockHeaderAndShortTxIDs Nat

section Sizes

lemma length_le_flatMap {α : Type} {f : α → Bytes} {v : List α} (h : ∀ a, 0 < (f a).length) :
    v.length ≤ (v.flatMap f).length := by
  induction v with
  | nil => exact zero_le _
  | cons a v ih =>
    have ha := h a
    rw [length_cons, flatMap_cons, length_append]
    omega

lemma length_le_flatMap_of_mem {α : Type} {f : α → Bytes} {v : List α} {a : α} (h : a ∈ v) :
    (f a).length ≤ (v.flatMap f).length := by
  induction v with
  | nil => cases h
  | cons b v ih =>
    rw [flatMap_cons, length_append]
    obtain rfl | h := mem_cons.mp h
    · omega
    · have := ih h
      omega

lemma fitsMaxSize_withoutWitness {tx : CMutableTransaction} (h : checkTransaction tx false = .ok ()) :
    FitsMaxSize tx.withoutWitness := by
  obtain ⟨-, hsize, -⟩ := checkTransaction_ok h
  have hmax : MAX_SIZE = 33554432 := rfl
  have hweight : MAX_BLOCK_WEIGHT = 4000000 := rfl
  have hscale : WITNESS_SCALE_FACTOR = 4 := rfl
  rw [hscale] at hsize
  have hparts : (tx.vin.flatMap CTxIn.serialize).length + (tx.vout.flatMap CTxOut.serialize).length ≤
      tx.getSerializeSize strippedStream := by
    unfold CMutableTransaction.getSerializeSize CMutableTransaction.serialize serializeVector
    simp only [length_append]
    omega
  have hin : ∀ txin : CTxIn, txin.scriptSig.length < txin.serialize.length := by
    intro txin
    simp only [CTxIn.serialize, COutPoint.serialize, serializeBytes, serializeUInt32, length_append,
      BaseBlob.length_data, length_leBytes]
    omega
  have hout : ∀ txout : CTxOut, txout.scriptPubKey.length < txout.serialize.length := by
    intro txout
    simp only [CTxOut.serialize, serializeBytes, serializeInt64, length_append, length_leBytes]
    omega
  have hvin := length_le_flatMap (v := tx.vin) (fun txin => (zero_le _).trans_lt (hin txin))
  have hvout := length_le_flatMap (v := tx.vout) (fun txout => (zero_le _).trans_lt (hout txout))
  have hvin' : tx.withoutWitness.vin = tx.vin.map CTxIn.withoutWitness := rfl
  have hvout' : tx.withoutWitness.vout = tx.vout := rfl
  constructor
  · rw [hvin', length_map]
    omega
  · rw [hvout']
    omega
  · rw [hvin', forall_mem_map]
    intro txin hmem
    have hle := length_le_flatMap_of_mem (f := CTxIn.serialize) hmem
    have := hin txin
    change txin.scriptSig.length ≤ MAX_SIZE
    omega
  · rw [hvin', forall_mem_map]
    exact fun txin _ => zero_le _
  · rw [hvin', forall_mem_map]
    intro txin _ item hitem
    cases hitem
  · rw [hvout']
    intro txout hmem
    have hle := length_le_flatMap_of_mem (f := CTxOut.serialize) hmem
    have := hout txout
    omega

lemma FitsMaxSize.ofWithoutWitness {tx : CMutableTransaction} (h : FitsMaxSize tx.withoutWitness)
    (hwitness : ∀ txin ∈ tx.vin, txin.scriptWitness.length ≤ MAX_SIZE ∧
      ∀ item ∈ txin.scriptWitness, item.length ≤ MAX_SIZE) : FitsMaxSize tx where
  vin := by simpa [CMutableTransaction.withoutWitness] using h.vin
  vout := h.vout
  scriptSig txin hmem := h.scriptSig txin.withoutWitness (mem_map_of_mem hmem)
  stack txin hmem := (hwitness txin hmem).1
  item txin hmem := (hwitness txin hmem).2
  scriptPubKey := h.scriptPubKey

lemma exists_vin_of_isCoinBase {tx : CMutableTransaction} (h : tx.isCoinBase = true) : ∃ txin, tx.vin = [txin] := by
  unfold CMutableTransaction.isCoinBase at h
  split at h
  · exact ⟨_, ‹_›⟩
  · cases h

end Sizes

namespace PartiallyDownloadedBlock

variable {sha256 : Bytes → Uint256} {cmpctblock : CBlockHeaderAndShortTxIDs sha256}
  {shorttxids : ShortIDMap} {st st' : MatchState sha256} {vtx : List (CTransaction sha256)}

section Steps

/-- Every transaction that is available is that of the block. -/
structure FromBlock (vtx : List (CTransaction sha256)) (txnAvailable : List (Option (CTransaction sha256))) :
    Prop where
  length : txnAvailable.length = vtx.length
  available : ∀ (i : ℕ) tx, txnAvailable[i]? = some (some tx) → vtx[i]? = some tx

lemma FromBlock.set {txnAvailable : List (Option (CTransaction sha256))} (h : FromBlock vtx txnAvailable)
    {pos : ℕ} {tx : Option (CTransaction sha256)} (htx : ∀ t, tx = some t → vtx[pos]? = some t) :
    FromBlock vtx (txnAvailable.set pos tx) where
  length := by rw [length_set, h.length]
  available i t hget := by
    rw [getElem?_set] at hget
    split_ifs at hget with hpos hlt
    · rw [← hpos]
      exact htx t (Option.some.inj hget)
    · exact h.available i t hget

lemma FromBlock.reset (h : FromBlock vtx st.txnAvailable) (pos : ℕ) :
    FromBlock vtx (resetPosition st pos).txnAvailable :=
  h.set (fun t ht => by cases ht)

lemma FromBlock.fill (h : FromBlock vtx st.txnAvailable) {pos : ℕ} {tx : Option (CTransaction sha256)}
    (htx : ∀ t, tx = some t → vtx[pos]? = some t) (hok : fillPosition st pos tx = .ok st') :
    FromBlock vtx st'.txnAvailable := by
  unfold fillPosition at hok
  split_ifs at hok
  obtain rfl := Except.ok.inj hok
  exact h.set htx

lemma FromBlock.matchMempool {pool : CTxMemPool sha256} {txHash : Uint256 × Uint256}
    (h : FromBlock vtx st.txnAvailable)
    (hentry : ∀ pos e, shorttxids.lookup (cmpctblock.getShortID txHash.1) = some pos →
      pool.mapTx.lookup txHash.2 = some e → vtx[pos.toNat]? = some e.tx)
    (hok : matchMempool cmpctblock shorttxids pool st txHash = .ok st') : FromBlock vtx st'.txnAvailable := by
  unfold PartiallyDownloadedBlock.matchMempool at hok
  split at hok
  · exact Except.ok.inj hok ▸ h
  · rename_i pos hlookup
    split at hok
    · split at hok
      · cases hok
      · rename_i e he
        refine h.fill (fun t ht => ?_) hok
        rw [← Option.some.inj ht]
        exact hentry pos e hlookup he
    · exact Except.ok.inj hok ▸ h.reset pos.toNat
    · exact Except.ok.inj hok ▸ h
    · cases hok

lemma FromBlock.matchExtra {extra : ExtraTxn sha256} (h : FromBlock vtx st.txnAvailable)
    (hextra : ∀ pos t, shorttxids.lookup (cmpctblock.getShortID extra.1) = some pos →
      extra.2 = some t → vtx[pos.toNat]? = some t)
    (hok : matchExtra cmpctblock shorttxids st extra = .ok st') : FromBlock vtx st'.txnAvailable := by
  unfold PartiallyDownloadedBlock.matchExtra at hok
  split at hok
  · exact Except.ok.inj hok ▸ h
  · rename_i pos hlookup
    split at hok
    · exact h.fill (fun t ht => hextra pos t hlookup ht) hok
    · split at hok
      · cases hok
      · split_ifs at hok
        · exact Except.ok.inj hok ▸ h.reset pos.toNat
        · exact Except.ok.inj hok ▸ h
    · exact Except.ok.inj hok ▸ h
    · cases hok

lemma scan_keeps {α : Type} {step : MatchState sha256 → α → Except InitStop (MatchState sha256)}
    {P : MatchState sha256 → Prop} {as : List α}
    (hstep : ∀ a ∈ as, ∀ st st', P st → step st a = .ok st' → P st') (h : P st)
    (hok : scan shorttxids step as st = .ok st') : P st' := by
  induction as generalizing st with
  | nil => exact Except.ok.inj hok ▸ h
  | cons a as ih =>
    rw [scan, bind_eq_ok_iff] at hok
    obtain ⟨st₁, hfirst, hok⟩ := hok
    have h₁ := hstep a mem_cons_self st st₁ h hfirst
    split_ifs at hok
    · exact Except.ok.inj hok ▸ h₁
    · exact ih (fun a ha => hstep a (mem_cons_of_mem _ ha)) h₁ hok

end Steps

section Fill

def missingOf : List (Option (CTransaction sha256)) → List (CTransaction sha256) → List (CTransaction sha256)
  | none :: txnAvailable, tx :: vtx => tx :: missingOf txnAvailable vtx
  | some _ :: txnAvailable, _ :: vtx => missingOf txnAvailable vtx
  | _, _ => []

lemma fillTransactions_missingOf {txnAvailable : List (Option (CTransaction sha256))}
    (h : FromBlock vtx txnAvailable) :
    fillTransactions txnAvailable (missingOf txnAvailable vtx) = some (vtx, []) := by
  induction txnAvailable generalizing vtx with
  | nil =>
    obtain rfl := length_eq_zero_iff.mp h.length.symm
    rfl
  | cons available txnAvailable ih =>
    cases vtx with
    | nil => cases h.length
    | cons tx vtx =>
      have hrest : FromBlock vtx txnAvailable :=
        ⟨Nat.succ.inj h.length, fun i t hget => h.available (i + 1) t hget⟩
      cases available with
      | none =>
        rw [missingOf, fillTransactions, ih hrest]
        rfl
      | some t =>
        obtain rfl := Option.some.inj (h.available 0 t rfl)
        rw [missingOf, fillTransactions, ih hrest]
        rfl

lemma checkBlock_keeps {block block' : CBlock sha256} {params : ConsensusParams}
    (hok : checkBlock block params true true = .ok block') :
    block'.toCBlockHeader = block.toCBlockHeader ∧ block'.vtx = block.vtx := by
  unfold checkBlock at hok
  by_cases hchecked : block.fChecked = true
  · rw [if_pos hchecked] at hok
    exact Except.ok.inj hok ▸ ⟨rfl, rfl⟩
  · rw [if_neg hchecked] at hok
    simp only [unit_bind_eq_ok_iff] at hok
    obtain ⟨-, -, -, -, -, -, -, hok⟩ := hok
    exact Except.ok.inj hok ▸ ⟨rfl, rfl⟩

lemma fillBlock_missingOf {block : CBlock sha256} {params : ConsensusParams} {b : PartiallyDownloadedBlock sha256}
    (hcheck : ∃ block', checkBlock { block with fChecked := false } params true true = .ok block')
    (hheader : b.header = block.toCBlockHeader) (h : FromBlock block.vtx b.txnAvailable) :
    ∃ block', fillBlock params b (missingOf b.txnAvailable block.vtx) = (.READ_STATUS_OK, some block') ∧
      block'.toCBlockHeader = block.toCBlockHeader ∧ block'.vtx = block.vtx := by
  obtain ⟨block', hok⟩ := hcheck
  obtain ⟨hkeptHeader, hkeptVtx⟩ := checkBlock_keeps hok
  refine ⟨block', ?_, hkeptHeader, hkeptVtx⟩
  unfold fillBlock
  rw [fillTransactions_missingOf h]
  dsimp only
  rw [hheader, hok]

end Fill

section Message

variable {block : CBlock sha256} {coinbase : CTransaction sha256} {others : List (CTransaction sha256)}
  {nonce : UInt64}

lemma freePositions_make (hvtx : block.vtx = coinbase :: others) :
    freePositions (make block coinbase true nonce) =
      (List.range others.length).map Nat.succ := by
  have hcount : (make block coinbase true nonce).blockTxCount = others.length + 1 := by
    simp [blockTxCount, make, hvtx,
      fillShortTxIDSelector]
  have hpositions : prefilledPositions 0
      (make block coinbase true nonce).prefilledtxn = [0] := rfl
  rw [freePositions, hcount, hpositions, range_succ_eq_map, filter_cons_of_neg (by decide)]
  apply filter_eq_self.mpr
  intro q hq
  obtain ⟨k, -, rfl⟩ := mem_map.mp hq
  simp

lemma shortID_lt_make : ∀ id ∈ (make block coinbase true nonce).shorttxids,
    id.toNat < 2 ^ 48 := by
  intro id hid
  obtain ⟨tx, -, rfl⟩ := mem_map.mp hid
  unfold getShortID
  rw [UInt64.toNat_and]
  exact and_lt_two_pow _ (by decide)

lemma sendable_make (hvin : coinbase.vin ≠ []) (hfits : FitsMaxSize coinbase.toCMutableTransaction)
    (hvtx : block.vtx = coinbase :: others) (hcount : others.length < 65535) :
    Sendable (make block coinbase true nonce) where
  keys := rfl
  shorttxids := by
    have hmax : MAX_SIZE = 33554432 := rfl
    simp only [make, hvtx, tail_cons, length_map]
    omega
  prefilledtxn := show 1 ≤ MAX_SIZE by decide
  short := shortID_lt_make
  vin p hp := by
    obtain rfl := mem_singleton.mp hp
    exact hvin
  fits p hp := by
    obtain rfl := mem_singleton.mp hp
    exact hfits

lemma refuses_make {txin : CTxIn} (hvin : coinbase.vin = [txin])
    (hfits : FitsMaxSize coinbase.toCMutableTransaction.withoutWitness)
    (hstack : txin.scriptWitness.length < 2 ^ 64) (hlt : ∀ item ∈ txin.scriptWitness, item.length < 2 ^ 64)
    (hlong : ¬ (txin.scriptWitness.length ≤ MAX_SIZE ∧ ∀ item ∈ txin.scriptWitness, item.length ≤ MAX_SIZE))
    (hvtx : block.vtx = coinbase :: others) (hcount : others.length < 65535) :
    Refuses (decode sha256)
      (make block coinbase true nonce).serialize := by
  have hmax : MAX_SIZE = 33554432 := rfl
  have hprefilled : (make block coinbase true nonce).prefilledtxn =
      ⟨0, coinbase⟩ :: [] := rfl
  refine refuses_message shortID_lt_make ?_ hprefilled (show 0 < MAX_SIZE by decide)
    (refuses_transaction (by decide) (by decide) hvin hfits hstack hlt hlong)
  simp only [make, hvtx, tail_cons, length_map]
  omega

lemma initPrefilled_make {txnAvailable : List (Option (CTransaction sha256))}
    (hok : initPrefilled (make block coinbase true nonce) = .ok txnAvailable) :
    txnAvailable = (List.replicate
      (make block coinbase true nonce).blockTxCount none).set 0 (some coinbase) := by
  have hprefilled : (make block coinbase true nonce).prefilledtxn = [⟨0, coinbase⟩] := rfl
  unfold initPrefilled at hok
  split_ifs at hok
  rw [hprefilled, placePrefilled] at hok
  dsimp only at hok
  split_ifs at hok
  exact (Except.ok.inj hok).symm

lemma getElem?_shorttxids_make {j : ℕ} {id : UInt64}
    (hget : (make block coinbase true nonce).shorttxids[j]? = some id) :
    ∃ tx, block.vtx[j + 1]? = some tx ∧
      (make block coinbase true nonce).getShortID tx.witnessHash = id := by
  rw [make, getElem?_map, Option.map_eq_some_iff] at hget
  obtain ⟨tx, htx, hid⟩ := hget
  rw [getElem?_tail] at htx
  exact ⟨tx, htx, hid⟩

lemma place_make (hvtx : block.vtx = coinbase :: others) {id : UInt64} {pos : UInt16}
    (hkeys : shorttxids.keys = (make block coinbase true nonce).shorttxids.toFinset)
    (hplaces : ∀ (j : ℕ) id, (make block coinbase true nonce).shorttxids[j]? = some id →
      ∃ q pos, (freePositions (make block coinbase true nonce))[j]? = some q ∧
        shorttxids.lookup id = some pos ∧ pos.toNat = q) (hlookup : shorttxids.lookup id = some pos) :
    ∃ tx, 0 < pos.toNat ∧ block.vtx[pos.toNat]? = some tx ∧
      (make block coinbase true nonce).getShortID tx.witnessHash = id := by
  have hmem : id ∈ shorttxids.keys := Finmap.mem_keys.mpr (Finmap.lookup_isSome.mp (by rw [hlookup]; rfl))
  rw [hkeys, mem_toFinset] at hmem
  obtain ⟨j, hj⟩ := mem_iff_getElem?.mp hmem
  obtain ⟨q, pos', hq, hlookup', hpos⟩ := hplaces j id hj
  obtain rfl := Option.some.inj (hlookup'.symm.trans hlookup)
  rw [freePositions_make hvtx, getElem?_map, Option.map_eq_some_iff] at hq
  obtain ⟨k, hk, hsucc⟩ := hq
  obtain ⟨hlt, rfl⟩ := List.getElem?_eq_some_iff.mp hk
  rw [getElem_range] at hsucc
  obtain ⟨tx, htx, hid⟩ := getElem?_shorttxids_make hj
  rw [hpos, ← hsucc]
  exact ⟨tx, succ_pos _, htx, hid⟩

/-- No transaction from outside the block has one of its short ids. -/
structure NoForeign (cmpctblock : CBlockHeaderAndShortTxIDs sha256) (vtx : List (CTransaction sha256))
    (pool : CTxMemPool sha256) (extraTxn : List (ExtraTxn sha256)) : Prop where
  mempool : ∀ txHash ∈ pool.vTxHashes, ∀ e, pool.mapTx.lookup txHash.2 = some e → ∀ (i : ℕ) tx, 0 < i →
    vtx[i]? = some tx → cmpctblock.getShortID txHash.1 = cmpctblock.getShortID tx.witnessHash → e.tx = tx
  extra : ∀ extra ∈ extraTxn, ∀ t, extra.2 = some t → ∀ (i : ℕ) tx, 0 < i → vtx[i]? = some tx →
    cmpctblock.getShortID extra.1 = cmpctblock.getShortID tx.witnessHash → t = tx

lemma fromBlock_initData {bucket : ℕ → UInt64 → ℕ} {pool : CTxMemPool sha256} {extraTxn : List (ExtraTxn sha256)}
    {b : PartiallyDownloadedBlock sha256} (hvtx : block.vtx = coinbase :: others) (hcount : others.length < 65535)
    (hforeign : NoForeign (make block coinbase true nonce) block.vtx pool extraTxn)
    (hok : initData bucket pool (make block coinbase true nonce) extraTxn = .ok b) :
    b.header = block.toCBlockHeader ∧ FromBlock block.vtx b.txnAvailable := by
  set cmpctblock := make block coinbase true nonce with hmake
  have htotal : cmpctblock.blockTxCount = block.vtx.length := by
    simp [hmake, blockTxCount, make, hvtx,
      fillShortTxIDSelector]
  have hlength : block.vtx.length = others.length + 1 := by rw [hvtx, length_cons]
  unfold initData at hok
  simp only [bind_eq_ok_iff] at hok
  obtain ⟨txnAvailable, hprefilled, shorttxids, hids, st, hscan, hok⟩ := hok
  obtain rfl := Except.ok.inj hok
  refine ⟨rfl, ?_⟩
  have hfirst : FromBlock block.vtx txnAvailable := by
    rw [initPrefilled_make hprefilled]
    refine FromBlock.set ⟨by rw [length_replicate]; exact htotal, ?_⟩ ?_
    · intro i tx hget
      rw [getElem?_replicate] at hget
      split_ifs at hget
      cases Option.some.inj hget
    · intro t ht
      rw [← Option.some.inj ht, hvtx]
      rfl
  obtain ⟨hwell, txnAvailable', hprefilled', hlen, hfree⟩ | ⟨-, hrefused⟩ := initPrefilled_spec cmpctblock
  · obtain rfl := Except.ok.inj (hprefilled'.symm.trans hprefilled)
    obtain ⟨-, shorttxids', hids', hkeys, hmapped⟩ | ⟨-, hfailed⟩ :=
      initShortIDs_spec bucket hwell (show 1 < 2 ^ 16 by decide) hlen hfree
    · obtain rfl := Except.ok.inj (hids'.symm.trans hids)
      obtain ⟨-, hplaces⟩ := mapsTo_of_count (by omega) hkeys hmapped
      unfold initScan at hscan
      rw [bind_eq_ok_iff] at hscan
      obtain ⟨st₁, hpool, hextra⟩ := hscan
      have hst₁ : FromBlock block.vtx st₁.txnAvailable := by
        refine scan_keeps (P := fun st => FromBlock block.vtx st.txnAvailable) ?_ hfirst hpool
        intro txHash hmem st st' h hstep
        refine h.matchMempool (fun pos e hlookup he => ?_) hstep
        obtain ⟨tx, hpos, htx, hid⟩ := place_make hvtx hkeys hplaces hlookup
        rw [hforeign.mempool txHash hmem e he pos.toNat tx hpos htx hid.symm]
        exact htx
      refine scan_keeps (P := fun st => FromBlock block.vtx st.txnAvailable) ?_ hst₁ hextra
      intro extra hmem st st' h hstep
      refine h.matchExtra (fun pos t hlookup ht => ?_) hstep
      obtain ⟨tx, hpos, htx, hid⟩ := place_make hvtx hkeys hplaces hlookup
      rw [hforeign.extra extra hmem t ht pos.toNat tx hpos htx hid.symm]
      exact htx
    · cases hfailed.symm.trans hids
  · cases hrefused.symm.trans hprefilled

/-- The message of a block that `CheckBlock` accepts is decoded again, unless the witness of the coinbase
is longer than a reader takes. If the initialisation from it succeeds and no foreign transaction has a
short id of the block, what is available are the transactions of the block, and with the others put
between them the block is complete. -/
theorem fillBlock_initData (sha256 : Bytes → Uint256) (params : ConsensusParams) (bucket : ℕ → UInt64 → ℕ)
    (block : CBlock sha256) (coinbase : CTransaction sha256) (others : List (CTransaction sha256))
    (nonce : UInt64) (rest : Bytes)
    (hcheck : ∃ block', checkBlock { block with fChecked := false } params true true = .ok block')
    (hvtx : block.vtx = coinbase :: others) (hcount : block.vtx.length ≤ 65535)
    (hsize : ∀ txin ∈ coinbase.vin, txin.scriptWitness.length < 2 ^ 64 ∧
      ∀ item ∈ txin.scriptWitness, item.length < 2 ^ 64) :
    ((∀ txin ∈ coinbase.vin, txin.scriptWitness.length ≤ MAX_SIZE ∧
        ∀ item ∈ txin.scriptWitness, item.length ≤ MAX_SIZE) →
      decode sha256
        ((make block coinbase true nonce).serialize ++ rest) =
        .ok (make block coinbase true nonce, rest)) ∧
    ∀ cmpctblock rest', decode sha256
        ((make block coinbase true nonce).serialize ++ rest) = .ok (cmpctblock, rest') →
      ∀ pool extraTxn b, NoForeign cmpctblock block.vtx pool extraTxn →
        initData bucket pool cmpctblock extraTxn = .ok b →
        (∀ (i : ℕ) tx, b.txnAvailable[i]? = some (some tx) → block.vtx[i]? = some tx) ∧
        ∃ block', fillBlock params b (missingOf b.txnAvailable block.vtx) = (.READ_STATUS_OK, some block') ∧
          block'.toCBlockHeader = block.toCBlockHeader ∧ block'.vtx = block.vtx := by
  have hchecked : Checked { block with fChecked := false } := by
    obtain ⟨block', hok⟩ := hcheck
    exact checked_of_checkBlock rfl hok
  have htx : checkTransaction coinbase.toCMutableTransaction false = .ok () :=
    hchecked.transactions coinbase (by simp [hvtx])
  have hfew : others.length < 65535 := by
    rw [hvtx, length_cons] at hcount
    omega
  obtain ⟨txin, hvin⟩ : ∃ txin, coinbase.vin = [txin] := by
    obtain ⟨cb, rest, hcb, hcoinbase, -⟩ := hchecked.coinbase
    obtain ⟨rfl, -⟩ := List.cons.inj (hvtx.symm.trans hcb)
    exact exists_vin_of_isCoinBase hcoinbase
  have hne : coinbase.vin ≠ [] := by
    rw [hvin]
    exact cons_ne_nil txin []
  have hfits : FitsMaxSize coinbase.toCMutableTransaction.withoutWitness := fitsMaxSize_withoutWitness htx
  have hdecode : (∀ txin ∈ coinbase.vin, txin.scriptWitness.length ≤ MAX_SIZE ∧
      ∀ item ∈ txin.scriptWitness, item.length ≤ MAX_SIZE) →
      decode sha256
        ((make block coinbase true nonce).serialize ++ rest) =
        .ok (make block coinbase true nonce, rest) := fun hwitness =>
    (sendable_make hne (hfits.ofWithoutWitness hwitness) hvtx hfew).decodes rest
  refine ⟨hdecode, ?_⟩
  intro cmpctblock rest' hok pool extraTxn b hforeign hinit
  by_cases hwitness : ∀ txin ∈ coinbase.vin, txin.scriptWitness.length ≤ MAX_SIZE ∧
      ∀ item ∈ txin.scriptWitness, item.length ≤ MAX_SIZE
  · obtain ⟨rfl, -⟩ := Prod.mk.inj (Except.ok.inj ((hdecode hwitness).symm.trans hok))
    obtain ⟨hheader, hfrom⟩ := fromBlock_initData hvtx hfew hforeign hinit
    exact ⟨hfrom.available, fillBlock_missingOf hcheck hheader hfrom⟩
  · rw [hvin] at hwitness hsize
    rw [forall_mem_singleton] at hwitness hsize
    obtain ⟨failure, hfailure⟩ := refuses_make hvin hfits hsize.1 hsize.2 hwitness hvtx hfew rest
    cases hfailure.symm.trans hok

/-- The extra list has the second transaction, so that nothing is missing. -/
theorem fillBlock_initData_doubleSpendBlock :
    decode cSHA256
      ((make doubleSpendBlock coinbaseTx true 0).serialize ++ []) =
      .ok (make doubleSpendBlock coinbaseTx true 0, []) ∧
    ∃ b, initData identityBucket CTxMemPool.empty (make doubleSpendBlock coinbaseTx true 0)
        [(doubleSpendTx.witnessHash, some doubleSpendTx)] = .ok b ∧ b.txnAvailable.map Option.isSome = [true, true] ∧
      ∃ block', fillBlock regtest b (missingOf b.txnAvailable doubleSpendBlock.vtx) =
        (.READ_STATUS_OK, some block') ∧ block'.vtx = doubleSpendBlock.vtx := by
  have hwitness : ∀ txin ∈ coinbaseTx.vin, txin.scriptWitness = [] := forall_mem_singleton.mpr rfl
  have hsize : ∀ (l : ℕ), ∀ txin ∈ coinbaseTx.vin, txin.scriptWitness.length ≤ l ∧
      ∀ item ∈ txin.scriptWitness, item.length ≤ l := by
    intro l txin hmem
    rw [hwitness txin hmem]
    exact ⟨zero_le l, fun item hitem => by cases hitem⟩
  obtain ⟨hdecode, hfill⟩ := fillBlock_initData cSHA256 regtest identityBucket doubleSpendBlock coinbaseTx
    [doubleSpendTx] 0 [] checkBlock_doubleSpendBlock rfl (show 2 ≤ 65535 by decide)
    (fun txin hmem => ⟨lt_succ_of_le (hsize _ txin hmem).1,
      fun item hitem => lt_succ_of_le ((hsize _ txin hmem).2 item hitem)⟩)
  have hok := hdecode (hsize MAX_SIZE)
  have hforeign : NoForeign (make doubleSpendBlock coinbaseTx true 0)
      doubleSpendBlock.vtx CTxMemPool.empty [(doubleSpendTx.witnessHash, some doubleSpendTx)] := by
    refine ⟨fun txHash hmem => absurd hmem not_mem_nil, fun extra hmem t ht pos tx hpos htx _ => ?_⟩
    obtain rfl := mem_singleton.mp hmem
    obtain rfl := Option.some.inj ht
    have hlast : pos = 1 := le_antisymm (le_of_lt_succ (List.getElem?_eq_some_iff.mp htx).1) hpos
    rw [hlast] at htx
    exact Option.some.inj htx
  have havailable : ((initData identityBucket CTxMemPool.empty
      (make doubleSpendBlock coinbaseTx true 0)
      [(doubleSpendTx.witnessHash, some doubleSpendTx)]).toOption.map
        fun b => b.txnAvailable.map Option.isSome) = some [true, true] := by
    decide +kernel
  obtain ⟨b, hb, hsome⟩ := Option.map_eq_some_iff.mp havailable
  have hinit := eq_ok_of_toOption hb
  obtain ⟨-, block', hblock, -, hvtx⟩ := hfill _ [] hok CTxMemPool.empty _ b hforeign hinit
  exact ⟨hok, b, hinit, hsome, block', hblock, hvtx⟩

end Message

end PartiallyDownloadedBlock

end MutableBitcoin
