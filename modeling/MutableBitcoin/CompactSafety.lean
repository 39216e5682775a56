import MutableBitcoin.CompactScan

/-!
# Safety of the initialisation from a compact block

`InitData` ends and stays within its vectors for every message that fits in the limit. Two things can go wrong.
-/

namespace MutableBitcoin
open Lib List CBlockHeaderAndShortTxIDs Nat Finmap CTxMemPool

namespace PartiallyDownloadedBlock

variable {sha256 : Bytes → Uint256}

section Ring

def ringOf (real : List (CTransaction sha256)) (k : ℕ) : List (ExtraTxn sha256) :=
  real.map ExtraTxn.ofTx ++ List.replicate k (ExtraTxn.null sha256)

lemma ring_shape {maxExtraTxn : ℕ} {ring : ExtraRing sha256} (h : RingReachable maxExtraTxn ring) :
    (ring.vExtraTxnForCompact = [] ∧ ring.vExtraTxnForCompactIt = 0) ∨
    ∃ real k, real ≠ [] ∧ ring.vExtraTxnForCompact = ringOf real k ∧ real.length + k = maxExtraTxn ∧
      ring.vExtraTxnForCompactIt < maxExtraTxn ∧ (0 < k → ring.vExtraTxnForCompactIt = real.length) := by
  induction h with
  | start => exact Or.inl ⟨rfl, rfl⟩
  | @add ring tx _ ih =>
    by_cases hmax : maxExtraTxn = 0
    · have hsame : addToCompactExtraTransactions maxExtraTxn tx ring = ring := if_pos hmax
      rw [hsame]
      exact ih
    · right
      have hpos : 0 < maxExtraTxn := pos_of_ne_zero hmax
      unfold addToCompactExtraTransactions
      rw [if_neg hmax]
      dsimp only
      obtain ⟨hempty, hit⟩ | ⟨real, k, hreal, hring, hlength, hlt, hit⟩ := ih
      · obtain ⟨k, rfl⟩ := exists_eq_succ_of_ne_zero hmax
        refine ⟨[tx], k, cons_ne_nil tx [], ?_, by rw [length_singleton]; omega,
          mod_lt _ hpos, ?_⟩
        · rw [hempty, hit]
          rfl
        · intro hk
          rw [hit]
          exact mod_eq_of_lt (by omega)
      · have hne : ring.vExtraTxnForCompact.isEmpty = false := by
          rw [hring, ringOf]
          cases real with
          | nil => exact absurd rfl hreal
          | cons _ _ => rfl
        rw [hne, if_neg Bool.false_ne_true, hring]
        obtain hfull | hk := Nat.eq_zero_or_pos k
        · subst hfull
          refine ⟨real.set ring.vExtraTxnForCompactIt tx, 0, ?_, ?_, by rwa [length_set],
            mod_lt _ hpos, fun h => absurd h (lt_irrefl 0)⟩
          · exact fun h => hreal (by simpa using congrArg List.length h)
          · rw [ringOf, ringOf, replicate_zero, append_nil, append_nil, map_set]
        · refine ⟨real ++ [tx], k - 1, by simp, ?_, ?_, mod_lt _ hpos, ?_⟩
          · obtain ⟨k, rfl⟩ := exists_eq_succ_of_ne_zero hk.ne'
            rw [hit hk, ringOf, ringOf, set_append_right _ _ (by rw [length_map]), length_map,
              Nat.sub_self, map_append, append_assoc]
            rfl
          · rw [length_append, length_singleton]
            omega
          · intro hk'
            rw [hit hk, length_append, length_singleton]
            exact mod_eq_of_lt (by omega)

end Ring

section NullPairs

variable {cmpctblock : CBlockHeaderAndShortTxIDs sha256} {shorttxids : ShortIDMap} {st : MatchState sha256}
  {slots : UInt64 → Slot sha256}

def nullShortID (cmpctblock : CBlockHeaderAndShortTxIDs sha256) : UInt64 :=
  cmpctblock.getShortID (BaseBlob.null 32)

lemma matchExtra_null {pos : UInt16} (hlookup : shorttxids.lookup (nullShortID cmpctblock) = some pos) :
    matchExtra cmpctblock shorttxids st (ExtraTxn.null sha256) =
      match st.haveTxn[pos.toNat]?, st.txnAvailable[pos.toNat]? with
      | some false, _ => fillPosition st pos.toNat none
      | some true, some (some _) => .error .nullDereference
      | some true, some none => .ok st
      | _, _ => .error .outOfRange := by
  have hid : cmpctblock.getShortID (BaseBlob.null 32) = nullShortID cmpctblock := rfl
  rw [← hid] at hlookup
  rcases hhave : st.haveTxn[pos.toNat]? with _ | _ | _ <;>
    rcases havailable : st.txnAvailable[pos.toNat]? with _ | _ | _ <;>
    simp only [matchExtra, ExtraTxn.null, hlookup, hhave, havailable]

lemma scan_nulls_quiet
    (h : matchExtra cmpctblock shorttxids st (ExtraTxn.null sha256) = .ok st) (k : ℕ) :
    scan shorttxids (matchExtra cmpctblock shorttxids) (List.replicate k (ExtraTxn.null sha256)) st = .ok st := by
  induction k with
  | zero => rfl
  | succ k ih =>
    rw [replicate_succ, scan, h, ok_bind, ih, ite_self]

lemma scan_nulls (hmap : MapsTo cmpctblock shorttxids) (h : Holds cmpctblock shorttxids slots st) (k : ℕ) :
    (0 < k ∧ nullShortID cmpctblock ∈ shorttxids ∧ (slots (nullShortID cmpctblock)).join.isSome ∧
      scan shorttxids (matchExtra cmpctblock shorttxids) (List.replicate k (ExtraTxn.null sha256)) st =
        .error .nullDereference) ∨
    (¬ (0 < k ∧ nullShortID cmpctblock ∈ shorttxids ∧ (slots (nullShortID cmpctblock)).join.isSome) ∧
      ∃ st', scan shorttxids (matchExtra cmpctblock shorttxids)
        (List.replicate k (ExtraTxn.null sha256)) st = .ok st') := by
  cases k with
  | zero => exact Or.inr ⟨fun h => absurd h.1 (lt_irrefl 0), st, rfl⟩
  | succ k =>
    cases hlookup : shorttxids.lookup (nullShortID cmpctblock) with
    | none =>
      refine Or.inr ⟨fun hall => ?_, st, scan_nulls_quiet ?_ _⟩
      · have hsome := lookup_isSome.mpr hall.2.1
        rw [hlookup] at hsome
        cases hsome
      · unfold matchExtra ExtraTxn.null
        dsimp only
        rw [show cmpctblock.getShortID (BaseBlob.null 32) = nullShortID cmpctblock from rfl, hlookup]
    | some pos =>
      have hmem : nullShortID cmpctblock ∈ shorttxids := lookup_isSome.mp (by rw [hlookup]; rfl)
      have hhave := h.have_eq _ pos hlookup
      have hlt := hmap.lt _ pos hlookup
      rcases hslot : slots (nullShortID cmpctblock) with _ | _ | a
      · -- The first null pair takes the place, and the others find it withdrawn.
        right
        refine ⟨by simp, ?_⟩
        have hfill : matchExtra cmpctblock shorttxids st (ExtraTxn.null sha256) =
            .ok ⟨st.txnAvailable.set pos.toNat none, st.haveTxn.set pos.toNat true, st.mempoolCount + 1⟩ := by
          rw [matchExtra_null hlookup, hhave, hslot]
          dsimp only [Option.isSome_none]
          rw [fillPosition, if_pos (h.lengthAvailable ▸ hlt)]
        have hquiet : matchExtra cmpctblock shorttxids
            ⟨st.txnAvailable.set pos.toNat none, st.haveTxn.set pos.toNat true, st.mempoolCount + 1⟩
            (ExtraTxn.null sha256) =
            .ok ⟨st.txnAvailable.set pos.toNat none, st.haveTxn.set pos.toNat true, st.mempoolCount + 1⟩ := by
          rw [matchExtra_null hlookup]
          dsimp only
          rw [getElem?_set_self (h.lengthHave ▸ hlt), getElem?_set_self (h.lengthAvailable ▸ hlt)]
        rw [replicate_succ, scan, hfill, ok_bind, scan_nulls_quiet hquiet, ite_self]
        exact ⟨_, rfl⟩
      · refine Or.inr ⟨by simp, st, scan_nulls_quiet ?_ _⟩
        have havailable := h.available_eq _ pos hlookup (by rw [hslot]; rfl)
        rw [matchExtra_null hlookup, hhave, havailable, hslot]
        rfl
      · refine Or.inl ⟨succ_pos k, hmem, rfl, ?_⟩
        have havailable := h.available_eq _ pos hlookup (by rw [hslot]; rfl)
        have hnull : matchExtra cmpctblock shorttxids st (ExtraTxn.null sha256) = .error .nullDereference := by
          rw [matchExtra_null hlookup, hhave, havailable, hslot]
          rfl
        rw [replicate_succ, scan, hnull]
        rfl

end NullPairs

section Safety

variable (bucket : ℕ → UInt64 → ℕ) (pool : CTxMemPool sha256) (cmpctblock : CBlockHeaderAndShortTxIDs sha256)
  (extraTxn : List (ExtraTxn sha256))

/-- The `i`-th short id is associated with the `i`-th place that no prefilled transaction takes. -/
def Associated : Prop :=
  ∃ txnAvailable shorttxids, initPrefilled cmpctblock = .ok txnAvailable ∧
    initShortIDs bucket cmpctblock txnAvailable = .ok shorttxids ∧
    ∀ (i : ℕ) id, cmpctblock.shorttxids[i]? = some id →
      ∃ q pos, (freePositions cmpctblock)[i]? = some q ∧ shorttxids.lookup id = some pos ∧ pos.toNat = q

/-- The run returns, within its vectors and without following a null pointer, and what it returns with
`READ_STATUS_OK` associates the short ids with their places. -/
def InitSafe : Prop :=
  match initData bucket pool cmpctblock extraTxn with
  | .ok _ => Associated bucket cmpctblock
  | .error (.returned _) => True
  | .error _ => False

def poolTxs : List (CTransaction sha256) :=
  pool.vTxHashes.filterMap (fun txHash => (pool.mapTx.lookup txHash.2).map (·.tx))

def extraTxs : List (CTransaction sha256) := extraTxn.filterMap (·.2)

/-- Every short id has a transaction. -/
def AllMatched (mem extra : List (CTransaction sha256)) : Prop :=
  ∀ id ∈ cmpctblock.shorttxids, Matched cmpctblock id mem extra

/-- The scan has stopped once every id had been matched. -/
structure ScannedPart (mem part : List (CTransaction sha256)) : Prop where
  isPrefix : part <+: mem
  before : ∀ k, 0 < k → k < part.length → ¬ AllMatched cmpctblock (mem.take k) []
  stop : part = mem ∨ (part ≠ [] ∧ AllMatched cmpctblock part [])

/-- A null pair is compared with a transaction: the message has the short id of null pairs, one
transaction matches it, and the scan of the extra transactions does not end before the null pairs. -/
def NullCompared (mem : List (CTransaction sha256)) : Prop :=
  (∃ extra ∈ extraTxn, extra.2 = none) ∧ nullShortID cmpctblock ∈ cmpctblock.shorttxids ∧
    ∃ part, ScannedPart cmpctblock mem part ∧
      Matched cmpctblock (nullShortID cmpctblock) part (extraTxs extraTxn) ∧
      ∀ k, 0 < k → k ≤ (extraTxs extraTxn).length →
        ¬ AllMatched cmpctblock part ((extraTxs extraTxn).take k)

variable {bucket pool cmpctblock extraTxn}

lemma ScannedPart.length_le {mem part part' : List (CTransaction sha256)}
    (h : ScannedPart cmpctblock mem part) (h' : ScannedPart cmpctblock mem part') :
    part'.length ≤ part.length := by
  by_contra hlt
  have htake : part = mem.take part.length := prefix_iff_eq_take.mp h.isPrefix
  have hle := h'.isPrefix.length_le
  obtain hall | ⟨hne, hmatched⟩ := h.stop
  · rw [hall] at hlt
    omega
  · rw [htake] at hmatched
    exact h'.before part.length (length_pos_iff.mpr hne) (not_le.mp hlt) hmatched

lemma ScannedPart.unique {mem part part' : List (CTransaction sha256)}
    (h : ScannedPart cmpctblock mem part) (h' : ScannedPart cmpctblock mem part') : part = part' := by
  have hlength : part.length = part'.length := le_antisymm (h'.length_le h) (h.length_le h')
  rw [prefix_iff_eq_take.mp h.isPrefix, prefix_iff_eq_take.mp h'.isPrefix, hlength]

lemma extraTxs_ringOf (real : List (CTransaction sha256)) (k : ℕ) : extraTxs (ringOf real k) = real := by
  have hnull : (List.replicate k (ExtraTxn.null sha256)).filterMap (·.2) = [] := by
    rw [filterMap_eq_nil_iff]
    intro extra hmem
    rw [eq_of_mem_replicate hmem]
    rfl
  rw [extraTxs, ringOf, filterMap_append, hnull, append_nil, filterMap_map]
  exact filterMap_some

lemma exists_null_ringOf {real : List (CTransaction sha256)} {k : ℕ} :
    (∃ extra ∈ ringOf real k, extra.2 = none) ↔ 0 < k := by
  constructor
  · rintro ⟨extra, hmem, hnone⟩
    rw [ringOf, mem_append] at hmem
    obtain hmem | hmem := hmem
    · obtain ⟨tx, -, rfl⟩ := mem_map.mp hmem
      cases hnone
    · exact pos_of_ne_zero (mem_replicate.mp hmem).1
  · intro hk
    exact ⟨ExtraTxn.null sha256, mem_append_right _ (mem_replicate.mpr ⟨hk.ne', rfl⟩), rfl⟩

section Found

variable {shorttxids : ShortIDMap}

lemma MapsTo.mem_iff (hmap : MapsTo cmpctblock shorttxids) {id : UInt64} :
    id ∈ shorttxids ↔ id ∈ cmpctblock.shorttxids := by
  rw [← Finmap.mem_keys, hmap.keys, mem_toFinset]

lemma MapsTo.found_iff (hmap : MapsTo cmpctblock shorttxids) {mem extra : List (CTransaction sha256)} :
    Found shorttxids (fun id => slotOf cmpctblock id mem extra) ↔ AllMatched cmpctblock mem extra := by
  unfold Found AllMatched
  simp only [hmap.mem_iff, slotOf_isSome_iff]

lemma scan_mempool (hmap : MapsTo cmpctblock shorttxids) (hpool : pool.IndexExact) {st : MatchState sha256}
    (h : Holds cmpctblock shorttxids (fun id => slotOf cmpctblock id [] []) st) :
    ∃ part st', ScannedPart cmpctblock (poolTxs pool) part ∧
      scan shorttxids (matchMempool cmpctblock shorttxids pool) pool.vTxHashes st = .ok st' ∧
      Holds cmpctblock shorttxids (fun id => slotOf cmpctblock id part []) st' := by
  have hentry : ∀ txHash ∈ pool.vTxHashes, ∃ e, pool.mapTx.lookup txHash.2 = some e ∧
      e.tx.witnessHash = txHash.1 := by
    intro txHash hmem
    obtain ⟨i, hi⟩ := mem_iff_getElem?.mp hmem
    obtain ⟨e, he, heq⟩ := Option.map_eq_some_iff.mp ((hpool.element i txHash.1 txHash.2).mp hi)
    exact ⟨e, he, (Prod.mk.inj heq).1⟩
  have hrel : List.Forall₂ (fun txHash tx => ∃ e, pool.mapTx.lookup txHash.2 = some e ∧
      e.tx.witnessHash = txHash.1 ∧ e.tx = tx) pool.vTxHashes (poolTxs pool) := by
    unfold poolTxs
    generalize pool.vTxHashes = index at hentry
    induction index with
    | nil => exact List.Forall₂.nil
    | cons txHash index ih =>
      obtain ⟨e, he, hhash⟩ := hentry txHash mem_cons_self
      rw [filterMap_cons_some (by rw [he]; rfl)]
      exact List.Forall₂.cons ⟨e, he, hhash, rfl⟩
        (ih (fun txHash hmem => hentry txHash (mem_cons_of_mem _ hmem)))
  have hspec := scan_spec (matchMempool cmpctblock shorttxids pool)
    (fun seen id => slotOf cmpctblock id seen []) ?_ hrel [] [] h
  · rw [append_nil] at hspec
    simp only [nil_append, hmap.found_iff] at hspec
    obtain ⟨k, st', hk, hle, hall, hbefore, hscan, hholds⟩ | ⟨hnone, st', hscan, hholds⟩ := hspec
    · refine ⟨(poolTxs pool).take k, st', ⟨List.take_prefix _ _, ?_, Or.inr ⟨?_, hall⟩⟩, hscan, hholds⟩
      · intro j hj hlt
        exact hbefore j hj (hlt.trans_le (length_take_le _ _))
      · rw [← length_pos_iff, length_take]
        omega
    · refine ⟨poolTxs pool, st', ⟨prefix_rfl, ?_, Or.inl rfl⟩, hscan, hholds⟩
      exact fun j hj hlt => hnone j hj hlt.le
  · rintro seen txHash _ st ⟨e, he, hhash, rfl⟩ hholds
    exact hholds.matchMempool hmap he hhash (fun id => slotOf_mempool seen e.tx)

lemma scan_ring (hmap : MapsTo cmpctblock shorttxids) {st : MatchState sha256}
    {part : List (CTransaction sha256)} (real : List (CTransaction sha256)) (k : ℕ)
    (h : Holds cmpctblock shorttxids (fun id => slotOf cmpctblock id part []) st) :
    ((∃ j, 0 < j ∧ j ≤ real.length ∧ AllMatched cmpctblock part (real.take j)) ∨
        ¬ (0 < k ∧ nullShortID cmpctblock ∈ shorttxids ∧
          Matched cmpctblock (nullShortID cmpctblock) part real)) ∧
      (∃ st', scan shorttxids (matchExtra cmpctblock shorttxids) (ringOf real k) st = .ok st') ∨
    ((∀ j, 0 < j → j ≤ real.length → ¬ AllMatched cmpctblock part (real.take j)) ∧
        0 < k ∧ nullShortID cmpctblock ∈ shorttxids ∧
          Matched cmpctblock (nullShortID cmpctblock) part real) ∧
      scan shorttxids (matchExtra cmpctblock shorttxids) (ringOf real k) st = .error .nullDereference := by
  have hrel : List.Forall₂ (fun extra tx => extra = ExtraTxn.ofTx tx) (real.map ExtraTxn.ofTx) real := by
    rw [forall₂_map_left_iff]
    exact forall₂_same.mpr (fun _ _ => rfl)
  have hspec := scan_spec (matchExtra cmpctblock shorttxids) (fun seen id => slotOf cmpctblock id part seen)
    ?_ hrel (List.replicate k (ExtraTxn.null sha256)) [] h
  · simp only [nil_append, hmap.found_iff] at hspec
    obtain ⟨j, st', hj, hle, hall, -, hscan, -⟩ | ⟨hnone, st', hscan, hholds⟩ := hspec
    · exact Or.inl ⟨Or.inl ⟨j, hj, hle, hall⟩, st', hscan⟩
    · unfold ringOf
      rw [hscan]
      have hnulls := scan_nulls hmap hholds k
      rw [slotOf_isSome_iff] at hnulls
      obtain ⟨hk, hmem, hmatched, herror⟩ | ⟨hnot, hok⟩ := hnulls
      · exact Or.inr ⟨⟨hnone, hk, hmem, hmatched⟩, herror⟩
      · exact Or.inl ⟨Or.inr hnot, hok⟩
  · rintro seen _ tx st rfl hholds
    exact hholds.matchExtra hmap tx (fun id => slotOf_extra part seen tx)

end Found

lemma initScan_ne_returned {txnAvailable : List (Option (CTransaction sha256))} {shorttxids : ShortIDMap}
    (status : ReadStatus) :
    initScan pool cmpctblock extraTxn txnAvailable shorttxids ≠ .error (.returned status) := by
  have hfill : ∀ (st : MatchState sha256) pos tx, fillPosition st pos tx ≠ .error (.returned status) := by
    intro st pos tx
    unfold fillPosition
    split_ifs <;> simp
  have hscan : ∀ {α : Type} (step : MatchState sha256 → α → Except InitStop (MatchState sha256)),
      (∀ st a, step st a ≠ .error (.returned status)) →
      ∀ as st, scan shorttxids step as st ≠ .error (.returned status) := by
    intro α step hstep as
    induction as with
    | nil =>
      intro st h
      cases h
    | cons a as ih =>
      intro st h
      rw [scan, bind_eq_error_iff] at h
      obtain h | ⟨st', -, h⟩ := h
      · exact hstep st a h
      · split_ifs at h
        exact ih st' h
  have hmempool : ∀ st txHash, matchMempool cmpctblock shorttxids pool st txHash ≠ .error (.returned status) := by
    intro st txHash
    unfold matchMempool
    split
    · simp
    · split
      · split
        · simp
        · exact hfill _ _ _
      all_goals simp
  have hextra : ∀ st extra, matchExtra cmpctblock shorttxids st extra ≠ .error (.returned status) := by
    intro st extra
    unfold matchExtra
    split
    · simp
    · split
      · exact hfill _ _ _
      · split
        · simp
        · split_ifs <;> simp
      all_goals simp
  unfold initScan
  rw [Ne, bind_eq_error_iff, not_or]
  refine ⟨hscan _ hmempool _ _, ?_⟩
  rintro ⟨st, -, h⟩
  exact hscan _ hextra _ _ h

section Map

variable {shorttxids : ShortIDMap}

lemma mapsTo_of_count (hcount : cmpctblock.blockTxCount ≤ 2 ^ 16)
    (hkeys : shorttxids.keys = cmpctblock.shorttxids.toFinset)
    (hmapped : ∀ (j : ℕ) id, cmpctblock.shorttxids[j]? = some id →
      ∃ q, (freePositions cmpctblock)[j]? = some q ∧ shorttxids.lookup id = some (UInt16.ofNat q)) :
    MapsTo cmpctblock shorttxids ∧
      ∀ (j : ℕ) id, cmpctblock.shorttxids[j]? = some id →
        ∃ q pos, (freePositions cmpctblock)[j]? = some q ∧ shorttxids.lookup id = some pos ∧ pos.toNat = q := by
  have hvalue : ∀ (j : ℕ) id, cmpctblock.shorttxids[j]? = some id → ∃ q pos, (freePositions cmpctblock)[j]? = some q ∧
      shorttxids.lookup id = some pos ∧ pos.toNat = q ∧ q < cmpctblock.blockTxCount := by
    intro j id hget
    obtain ⟨q, hq, hlookup⟩ := hmapped j id hget
    have hlt : q < cmpctblock.blockTxCount := (length_filter_range hq).1
    exact ⟨q, _, hq, hlookup, UInt16.toNat_ofNat_of_lt' (hlt.trans_le hcount), hlt⟩
  have hindex : ∀ id pos, shorttxids.lookup id = some pos → ∃ j : ℕ, cmpctblock.shorttxids[j]? = some id ∧
      (freePositions cmpctblock)[j]? = some pos.toNat ∧ pos.toNat < cmpctblock.blockTxCount := by
    intro id pos hlookup
    have hmem : id ∈ shorttxids.keys := mem_keys.mpr (lookup_isSome.mp (by rw [hlookup]; rfl))
    rw [hkeys, mem_toFinset] at hmem
    obtain ⟨j, hj⟩ := mem_iff_getElem?.mp hmem
    obtain ⟨q, pos', hq, hlookup', hpos', hlt⟩ := hvalue j id hj
    obtain rfl := Option.some.inj (hlookup'.symm.trans hlookup)
    exact ⟨j, hj, hpos' ▸ hq, hpos' ▸ hlt⟩
  refine ⟨⟨hkeys, ?_, ?_⟩, ?_⟩
  · intro id pos hlookup
    obtain ⟨j, -, -, hlt⟩ := hindex id pos hlookup
    exact hlt
  · intro id id' pos hlookup hlookup'
    obtain ⟨j, hj, hq, -⟩ := hindex id pos hlookup
    obtain ⟨j', hj', hq', -⟩ := hindex id' pos hlookup'
    have hfree : (freePositions cmpctblock).Nodup := nodup_range.filter _
    have hsame := (List.getElem?_inj (List.getElem?_eq_some_iff.mp hq).1 hfree).mp (hq.trans hq'.symm)
    exact Option.some.inj (hj.symm.trans ((congrArg (cmpctblock.shorttxids[·]?) hsame).trans hj'))
  · intro j id hget
    obtain ⟨q, pos, hq, hlookup, hpos, -⟩ := hvalue j id hget
    exact ⟨q, pos, hq, hlookup, hpos⟩

lemma exists_misplaced (hwell : WellFormed cmpctblock) (hcount : 2 ^ 16 < cmpctblock.blockTxCount)
    (hmapped : ∀ (j : ℕ) id, cmpctblock.shorttxids[j]? = some id →
      ∃ q, (freePositions cmpctblock)[j]? = some q ∧ shorttxids.lookup id = some (UInt16.ofNat q)) :
    ∃ (j : ℕ) (id : UInt64), cmpctblock.shorttxids[j]? = some id ∧ (freePositions cmpctblock)[j]? = some (2 ^ 16) ∧
      shorttxids.lookup id = some 0 := by
  have hfree : 2 ^ 16 ∈ freePositions cmpctblock := by
    rw [freePositions, mem_filter, mem_range, decide_eq_true_eq]
    refine ⟨hcount, fun hmem => ?_⟩
    have := (hwell.prefilled.position hmem).1
    omega
  obtain ⟨j, hj⟩ := mem_iff_getElem?.mp hfree
  have hlt : j < cmpctblock.shorttxids.length := by
    rw [← hwell.length_freePositions]
    exact (List.getElem?_eq_some_iff.mp hj).1
  obtain ⟨q, hq, hlookup⟩ := hmapped j _ (getElem?_eq_getElem hlt)
  obtain rfl := Option.some.inj (hq.symm.trans hj)
  exact ⟨j, _, getElem?_eq_getElem hlt, hj, hlookup⟩

lemma holds_initial {txnAvailable : List (Option (CTransaction sha256))}
    (hlength : txnAvailable.length = cmpctblock.blockTxCount) (hmap : MapsTo cmpctblock shorttxids) :
    Holds cmpctblock shorttxids (fun id => slotOf cmpctblock id [] [])
      ⟨txnAvailable, List.replicate txnAvailable.length false, 0⟩ where
  lengthAvailable := hlength
  lengthHave := by rw [length_replicate, hlength]
  have_eq id pos hpos := by
    rw [getElem?_replicate, if_pos (hlength ▸ hmap.lt id pos hpos)]
    rfl
  available_eq id pos hpos hsome := by cases hsome
  count := by
    have hnone : shorttxids.keys.filter (fun id => (slotOf cmpctblock id [] []).join.isSome) = ∅ :=
      Finset.filter_false_of_mem (fun id _ h => by cases h)
    rw [hnone]
    rfl

end Map

lemma initData_of_accepted {txnAvailable : List (Option (CTransaction sha256))} {shorttxids : ShortIDMap}
    (hprefilled : initPrefilled cmpctblock = .ok txnAvailable)
    (hids : initShortIDs bucket cmpctblock txnAvailable = .ok shorttxids) :
    initData bucket pool cmpctblock extraTxn =
      initScan pool cmpctblock extraTxn txnAvailable shorttxids >>= fun st =>
        .ok ⟨st.txnAvailable, cmpctblock.prefilledtxn.length, st.mempoolCount, cmpctblock.header⟩ := by
  unfold initData
  rw [hprefilled, ok_bind, hids, ok_bind]
  rfl

lemma initScan_spec {maxExtraTxn : ℕ} {ring : ExtraRing sha256} {shorttxids : ShortIDMap}
    {txnAvailable : List (Option (CTransaction sha256))} (hpool : pool.IndexExact)
    (hring : RingReachable maxExtraTxn ring) (hmap : MapsTo cmpctblock shorttxids)
    (hlength : txnAvailable.length = cmpctblock.blockTxCount) :
    (¬ NullCompared cmpctblock ring.vExtraTxnForCompact (poolTxs pool) ∧
      ∃ st, initScan pool cmpctblock ring.vExtraTxnForCompact txnAvailable shorttxids = .ok st) ∨
    (NullCompared cmpctblock ring.vExtraTxnForCompact (poolTxs pool) ∧
      initScan pool cmpctblock ring.vExtraTxnForCompact txnAvailable shorttxids = .error .nullDereference) := by
  obtain ⟨part, st, hpart, hscan, hholds⟩ := scan_mempool hmap hpool (holds_initial hlength hmap)
  unfold initScan
  rw [hscan, ok_bind]
  obtain ⟨hempty, -⟩ | ⟨real, k, -, hshape, -⟩ := ring_shape hring
  · rw [hempty]
    refine Or.inl ⟨?_, st, rfl⟩
    rintro ⟨⟨extra, hmem, -⟩, -⟩
    cases hmem
  · rw [hshape]
    unfold NullCompared
    rw [exists_null_ringOf, extraTxs_ringOf, ← hmap.mem_iff]
    obtain ⟨hsafe, hok⟩ | ⟨⟨hnone, hk, hmem, hmatched⟩, herror⟩ := scan_ring hmap real k hholds
    · refine Or.inl ⟨?_, hok⟩
      rintro ⟨hk, hmem, part', hpart', hmatched, hnone⟩
      obtain rfl := hpart.unique hpart'
      obtain ⟨j, hj, hle, hall⟩ | hnot := hsafe
      · exact hnone j hj hle hall
      · exact hnot ⟨hk, hmem, hmatched⟩
    · exact Or.inr ⟨⟨hk, hmem, part, hpart, hmatched, hnone⟩, herror⟩

lemma initSafe_iff {maxExtraTxn : ℕ} {ring : ExtraRing sha256}
    (hfew : cmpctblock.prefilledtxn.length < 2 ^ 16) (hpool : pool.IndexExact)
    (hring : RingReachable maxExtraTxn ring) :
    InitSafe bucket pool cmpctblock ring.vExtraTxnForCompact ↔
      ¬ WellFormed cmpctblock ∨ ¬ Distinguished bucket cmpctblock ∨
        (cmpctblock.blockTxCount ≤ 2 ^ 16 ∧
          ¬ NullCompared cmpctblock ring.vExtraTxnForCompact (poolTxs pool)) := by
  unfold InitSafe
  obtain ⟨hwell, txnAvailable, hprefilled, hlength, hfree⟩ | ⟨hwell, hrefused⟩ := initPrefilled_spec cmpctblock
  · obtain ⟨hdist, shorttxids, hids, hkeys, hmapped⟩ | ⟨hdist, hfailed⟩ :=
      initShortIDs_spec bucket hwell hfew hlength hfree
    · rw [initData_of_accepted hprefilled hids]
      have hnotRefused : (¬ WellFormed cmpctblock ∨ ¬ Distinguished bucket cmpctblock ∨
          (cmpctblock.blockTxCount ≤ 2 ^ 16 ∧
            ¬ NullCompared cmpctblock ring.vExtraTxnForCompact (poolTxs pool))) ↔
          cmpctblock.blockTxCount ≤ 2 ^ 16 ∧
            ¬ NullCompared cmpctblock ring.vExtraTxnForCompact (poolTxs pool) := by
        simp [hwell, hdist]
      rw [hnotRefused]
      by_cases hcount : cmpctblock.blockTxCount ≤ 2 ^ 16
      · obtain ⟨hmap, hplaces⟩ := mapsTo_of_count hcount hkeys hmapped
        obtain ⟨hnull, st, hscan⟩ | ⟨hnull, hscan⟩ := initScan_spec hpool hring hmap hlength
        · rw [hscan]
          exact ⟨fun _ => ⟨hcount, hnull⟩, fun _ => ⟨txnAvailable, shorttxids, hprefilled, hids, hplaces⟩⟩
        · rw [hscan]
          exact ⟨fun h => h.elim, fun h => h.2 hnull⟩
      · refine ⟨fun h => ?_, fun h => absurd h.1 hcount⟩
        cases hscan : initScan pool cmpctblock ring.vExtraTxnForCompact txnAvailable shorttxids with
        | error stop =>
          rw [hscan] at h
          cases stop with
          | returned status => exact absurd hscan (initScan_ne_returned status)
          | _ => exact h.elim
        | ok st =>
          rw [hscan] at h
          obtain ⟨txnAvailable', shorttxids', hprefilled', hids', hplaces⟩ := h
          obtain rfl := Except.ok.inj (hprefilled.symm.trans hprefilled')
          obtain rfl := Except.ok.inj (hids.symm.trans hids')
          obtain ⟨j, id, hget, hfreeAt, hzero⟩ := exists_misplaced hwell (not_le.mp hcount) hmapped
          obtain ⟨q, pos, hq, hlookup, hpos⟩ := hplaces j id hget
          obtain rfl := Option.some.inj (hq.symm.trans hfreeAt)
          obtain rfl := Option.some.inj (hlookup.symm.trans hzero)
          cases hpos
    · have hdata : initData bucket pool cmpctblock ring.vExtraTxnForCompact =
          .error (.returned .READ_STATUS_FAILED) := by
        unfold initData
        rw [hprefilled, ok_bind, hfailed]
        rfl
      rw [hdata]
      exact ⟨fun _ => Or.inr (Or.inl hdist), fun _ => trivial⟩
  · have hdata : initData bucket pool cmpctblock ring.vExtraTxnForCompact =
        .error (.returned .READ_STATUS_INVALID) := by
      unfold initData
      rw [hrefused]
      rfl
    rw [hdata]
    exact ⟨fun _ => Or.inl hwell, fun _ => trivial⟩

/-- For a message within the limit, a mempool with an exact index and any ring, the initialisation is
safe exactly if the message is refused before the scans, or all its places have 16 bits and no null
pair is compared. -/
theorem initData_safe_iff (sha256 : Bytes → Uint256) (bucket : ℕ → UInt64 → ℕ) (vch rest : Bytes)
    (cmpctblock : CBlockHeaderAndShortTxIDs sha256) (pool : CTxMemPool sha256) (maxExtraTxn : ℕ)
    (ring : ExtraRing sha256) (hdecode : decode sha256 vch = .ok (cmpctblock, rest))
    (hmessage : vch.length ≤ MAX_PROTOCOL_MESSAGE_LENGTH) (hpool : pool.IndexExact)
    (hring : RingReachable maxExtraTxn ring) :
    InitSafe bucket pool cmpctblock ring.vExtraTxnForCompact ↔
      ¬ WellFormed cmpctblock ∨ ¬ Distinguished bucket cmpctblock ∨
        (cmpctblock.blockTxCount ≤ 2 ^ 16 ∧
          ¬ NullCompared cmpctblock ring.vExtraTxnForCompact (poolTxs pool)) := by
  apply initSafe_iff _ hpool hring
  have hbytes := length_prefilledtxn_of_decode hdecode
  have hmax : MAX_PROTOCOL_MESSAGE_LENGTH = 4000000 := rfl
  omega

end Safety

section Messages

/-- A message with the short ids 0 to `n - 1` and nothing else. -/
def plainMessage (n : ℕ) : CBlockHeaderAndShortTxIDs cSHA256 :=
  fillShortTxIDSelector ⟨0, 0, 0, (List.range n).map UInt64.ofNat, [],
    ⟨1, BaseBlob.null 32, BaseBlob.null 32, 0, 0x207fffff, 0, BaseBlob.null 32⟩⟩

variable {n : ℕ}

lemma shorttxids_plainMessage : (plainMessage n).shorttxids = (List.range n).map UInt64.ofNat := rfl

lemma prefilledtxn_plainMessage : (plainMessage n).prefilledtxn = [] := rfl

lemma fillShortTxIDSelector_idem (c : CBlockHeaderAndShortTxIDs sha256) :
    c.fillShortTxIDSelector.fillShortTxIDSelector = c.fillShortTxIDSelector := rfl

lemma sendable_plainMessage (hn : n ≤ MAX_SIZE) : Sendable (plainMessage n) where
  keys := fillShortTxIDSelector_idem _
  shorttxids := by simpa [shorttxids_plainMessage] using hn
  prefilledtxn := by
    rw [prefilledtxn_plainMessage]
    exact zero_le _
  short id hid := by
    rw [shorttxids_plainMessage, mem_map] at hid
    obtain ⟨k, hk, rfl⟩ := hid
    rw [mem_range] at hk
    have hmax : MAX_SIZE = 33554432 := rfl
    rw [UInt64.toNat_ofNat', mod_eq_of_lt (by omega)]
    omega
  vin p hp := by
    rw [prefilledtxn_plainMessage] at hp
    cases hp
  fits p hp := by
    rw [prefilledtxn_plainMessage] at hp
    cases hp

lemma length_serialize_plainMessage (hn : n ≤ 0xffffffff) :
    (plainMessage n).serialize.length ≤ 126 + 6 * n := by
  have hids : (((List.range n).map UInt64.ofNat).flatMap
      serializeShortID).length = 6 * n := by
    have hsix : ∀ id, (serializeShortID id).length = 6 := by
      intro id
      simp [serializeShortID]
    rw [length_flatMap]
    simp [hsix, Function.comp_def, mul_comm]
  have hsize : (writeCompactSize n).length ≤ 5 := by
    unfold writeCompactSize
    split_ifs <;> simp
  unfold serialize serializeVector
  rw [length_append, length_append, length_append, length_append, length_append,
    CBlockHeader.length_serialize]
  have hheader : (serializeUInt64 (plainMessage n).nonce).length = 8 := by simp [serializeUInt64]
  rw [hheader, prefilledtxn_plainMessage, shorttxids_plainMessage, hids, length_map, length_range]
  simp [writeCompactSize] at hsize ⊢
  omega

lemma wellFormed_plainMessage (hpos : 0 < n) (hn : n ≤ 100000) : WellFormed (plainMessage n) where
  header := rfl
  nonempty := by
    left
    rw [shorttxids_plainMessage, ← length_pos_iff, length_map, length_range]
    exact hpos
  count := by
    rw [shorttxids_plainMessage, length_map, length_range]
    exact hn
  prefilled := trivial

lemma not_crowdedBucket_of_injOn {bucket : ℕ → UInt64 → ℕ} {m : ℕ} {S : Set UInt64} (hinj : Set.InjOn (bucket m) S)
    {keys : Finset UInt64} {ids : List UInt64} (hkeys : ∀ id ∈ keys, id ∈ S) (hids : ∀ id ∈ ids, id ∈ S) :
    ¬ CrowdedBucket bucket m keys ids := by
  induction ids generalizing keys with
  | nil => exact id
  | cons id ids ih =>
    rw [forall_mem_cons] at hids
    have hkeys' : ∀ key ∈ insert id keys, key ∈ S := by
      intro key hkey
      rw [Finset.mem_insert] at hkey
      obtain rfl | hkey := hkey
      · exact hids.1
      · exact hkeys key hkey
    have hone : ((insert id keys).filter (fun key => bucket m key = bucket m id)).card ≤ 1 := by
      rw [Finset.card_le_one]
      intro a ha b hb
      rw [Finset.mem_filter] at ha hb
      exact hinj (hkeys' a ha.1) (hkeys' b hb.1) (ha.2.trans hb.2.symm)
    rintro (hcrowd | hlater)
    · omega
    · exact ih hkeys' hids.2 hlater

def identityBucket (m : ℕ) (id : UInt64) : ℕ := id.toNat % m

lemma distinguished_plainMessage (hn : n ≤ 2 ^ 32) : Distinguished identityBucket (plainMessage n) := by
  have hvalue : ∀ id ∈ (plainMessage n).shorttxids, id.toNat < n := by
    intro id hid
    rw [shorttxids_plainMessage, mem_map] at hid
    obtain ⟨k, hk, rfl⟩ := hid
    rw [mem_range] at hk
    rw [UInt64.toNat_ofNat', mod_eq_of_lt (by omega)]
    exact hk
  constructor
  · rw [shorttxids_plainMessage]
    refine List.Nodup.map_on ?_ nodup_range
    intro a ha b hb heq
    rw [mem_range] at ha hb
    have hnat := congrArg UInt64.toNat heq
    rwa [UInt64.toNat_ofNat', UInt64.toNat_ofNat', mod_eq_of_lt (by omega), mod_eq_of_lt (by omega)] at hnat
  · refine not_crowdedBucket_of_injOn (S := {id | id.toNat < n}) ?_ (fun id hid => by simp at hid) hvalue
    intro a ha b hb heq
    have hlength : (plainMessage n).shorttxids.length = n := by
      rw [shorttxids_plainMessage, length_map, length_range]
    unfold identityBucket at heq
    rw [hlength, mod_eq_of_lt ha, mod_eq_of_lt hb] at heq
    exact UInt64.toNat_inj.mp heq

/-- A pool and a ring with a transaction each. The rest of the ring are null pairs. -/
theorem initData_safe_iff_plainMessage :
    ∃ pool, CTxMemPool.empty.addUnchecked CTxMemPool.pooledEntry ∅ = some pool ∧
      InitSafe identityBucket pool (plainMessage 2)
        (addToCompactExtraTransactions 100 CTxMemPool.laterTx ⟨[], 0⟩).vExtraTxnForCompact := by
  have hsome : (CTxMemPool.empty.addUnchecked CTxMemPool.pooledEntry ∅).isSome = true := by decide +kernel
  obtain ⟨pool, hpool⟩ := Option.isSome_iff_exists.mp hsome
  have hexact : pool.IndexExact := indexExact_empty.addUnchecked notMem_empty hpool
  have hdecode := (sendable_plainMessage (n := 2) (by decide)).decodes []
  rw [append_nil] at hdecode
  refine ⟨pool, hpool, (initData_safe_iff cSHA256 identityBucket _ [] (plainMessage 2) pool 100 _ hdecode
    ((length_serialize_plainMessage (by decide)).trans (by decide)) hexact
    (RingReachable.start.add CTxMemPool.laterTx)).mpr (Or.inr (Or.inr ⟨by decide, ?_⟩))⟩
  rintro ⟨-, hnull, -⟩
  revert hnull
  decide +kernel

lemma not_initSafe_of_count (h16 : 2 ^ 16 < n) (hn : n ≤ 100000) :
    decode cSHA256 (plainMessage n).serialize = .ok (plainMessage n, []) ∧
    (plainMessage n).serialize.length ≤ MAX_PROTOCOL_MESSAGE_LENGTH ∧
    (CTxMemPool.empty : CTxMemPool cSHA256).IndexExact ∧ RingReachable 100 (⟨[], 0⟩ : ExtraRing cSHA256) ∧
    ¬ InitSafe identityBucket CTxMemPool.empty (plainMessage n) [] := by
  have hdecode := (sendable_plainMessage (n := n) (hn.trans (by decide))).decodes []
  rw [append_nil] at hdecode
  have hmax : MAX_PROTOCOL_MESSAGE_LENGTH = 4000000 := rfl
  refine ⟨hdecode, (length_serialize_plainMessage (hn.trans (by decide))).trans (by omega),
    indexExact_empty, RingReachable.start, ?_⟩
  have hring : RingReachable 100 (⟨[], 0⟩ : ExtraRing cSHA256) := RingReachable.start
  have hfew : (plainMessage n).prefilledtxn.length < 2 ^ 16 := by
    rw [prefilledtxn_plainMessage]
    decide
  rw [show ([] : List (ExtraTxn cSHA256)) = (⟨[], 0⟩ : ExtraRing cSHA256).vExtraTxnForCompact from rfl,
    initSafe_iff hfew indexExact_empty hring]
  rintro (hwell | hdist | ⟨hcount, -⟩)
  · exact hwell (wellFormed_plainMessage (by omega) hn)
  · exact hdist (distinguished_plainMessage (hn.trans (by decide)))
  · have htotal : (plainMessage n).blockTxCount = n := by
      unfold blockTxCount
      rw [shorttxids_plainMessage, prefilledtxn_plainMessage, length_map, length_range,
        length_nil, add_zero]
    omega

/-- A message of 65537 short ids is decoded and stored with the last place as the first. -/
theorem not_initSafe_plainMessage :
    decode cSHA256 (plainMessage 65537).serialize = .ok (plainMessage 65537, []) ∧
    (plainMessage 65537).serialize.length ≤ MAX_PROTOCOL_MESSAGE_LENGTH ∧
    (CTxMemPool.empty : CTxMemPool cSHA256).IndexExact ∧ RingReachable 100 (⟨[], 0⟩ : ExtraRing cSHA256) ∧
    ¬ InitSafe identityBucket CTxMemPool.empty (plainMessage 65537) [] :=
  not_initSafe_of_count (by decide) (by decide)

end Messages

end PartiallyDownloadedBlock

end MutableBitcoin
