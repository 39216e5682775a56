import MutableBitcoin.CompactPositions
import MutableBitcoin.MempoolIndex

/-!
# The scans for the transactions of a compact block

For each short id the scans keep one of three things: nothing was found, one transaction was found,
or different ones were found and none is kept.
-/

namespace MutableBitcoin
open Lib List Finmap Option

namespace PartiallyDownloadedBlock

variable {sha256 : Bytes → Uint256}

section Slots

/-- What was found for a short id: `some none` after different transactions. -/
abbrev Slot (sha256 : Bytes → Uint256) := Option (Option (CTransaction sha256))

def slotMempool (slot : Slot sha256) (tx : CTransaction sha256) : Slot sha256 :=
  match slot with
  | none => some (some tx)
  | some _ => some none

def slotExtra (slot : Slot sha256) (tx : CTransaction sha256) : Slot sha256 :=
  match slot with
  | none => some (some tx)
  | some none => some none
  | some (some available) =>
    if available.witnessHash ≠ tx.witnessHash then some none else some (some available)

variable (cmpctblock : CBlockHeaderAndShortTxIDs sha256) (id : UInt64)

def matching (txs : List (CTransaction sha256)) : List (CTransaction sha256) :=
  txs.filter (fun tx => cmpctblock.getShortID tx.witnessHash = id)

def slotOf (mem extra : List (CTransaction sha256)) : Slot sha256 :=
  (matching cmpctblock id extra).foldl slotExtra ((matching cmpctblock id mem).foldl slotMempool none)

/-- The scans end with one transaction for the id. -/
def Matched (mem extra : List (CTransaction sha256)) : Prop :=
  ∃ tx, (∀ tx' ∈ matching cmpctblock id extra, tx'.witnessHash = tx.witnessHash) ∧
    (matching cmpctblock id mem = [tx] ∨
      matching cmpctblock id mem = [] ∧ (matching cmpctblock id extra).head? = some tx)

variable {cmpctblock id}

lemma foldl_slotExtra_withdrawn (txs : List (CTransaction sha256)) :
    txs.foldl slotExtra (some none) = some none := by
  induction txs with
  | nil => rfl
  | cons tx txs ih => exact ih

lemma foldl_slotExtra_found (a : CTransaction sha256) (txs : List (CTransaction sha256)) :
    (txs.foldl slotExtra (some (some a))).join.isSome ↔ ∀ tx ∈ txs, tx.witnessHash = a.witnessHash := by
  induction txs with
  | nil => simp
  | cons tx txs ih =>
    rw [foldl_cons, forall_mem_cons]
    by_cases heq : tx.witnessHash = a.witnessHash
    · rw [slotExtra, if_neg (by simp [heq]), ih]
      simp [heq]
    · rw [slotExtra, if_pos (Ne.symm heq), foldl_slotExtra_withdrawn]
      simp [heq]

lemma foldl_slotMempool_some (slot : Option (CTransaction sha256)) (tx : CTransaction sha256)
    (txs : List (CTransaction sha256)) : (tx :: txs).foldl slotMempool (some slot) = some none := by
  induction txs generalizing slot tx with
  | nil => rfl
  | cons tx' txs ih => exact ih none tx'

lemma slotOf_isSome_iff {mem extra : List (CTransaction sha256)} :
    (slotOf cmpctblock id mem extra).join.isSome ↔ Matched cmpctblock id mem extra := by
  unfold slotOf Matched
  generalize matching cmpctblock id mem = mem
  generalize matching cmpctblock id extra = extra
  rcases mem with _ | ⟨tx, _ | ⟨tx', mem⟩⟩
  · cases extra with
    | nil => simp
    | cons tx extra =>
      rw [foldl_nil, foldl_cons, slotExtra, foldl_slotExtra_found]
      simp
  · rw [foldl_cons, foldl_nil, slotMempool, foldl_slotExtra_found]
    simp
  · rw [foldl_cons, slotMempool, foldl_slotMempool_some, foldl_slotExtra_withdrawn]
    simp

lemma slotOf_mempool (mem : List (CTransaction sha256)) (tx : CTransaction sha256) :
    slotOf cmpctblock id (mem ++ [tx]) [] =
      if cmpctblock.getShortID tx.witnessHash = id then slotMempool (slotOf cmpctblock id mem []) tx
      else slotOf cmpctblock id mem [] := by
  unfold slotOf matching
  rw [filter_append, foldl_append, filter_nil, foldl_nil, foldl_nil]
  split_ifs with h
  · simp [h]
  · simp [h]

lemma slotOf_extra (mem extra : List (CTransaction sha256)) (tx : CTransaction sha256) :
    slotOf cmpctblock id mem (extra ++ [tx]) =
      if cmpctblock.getShortID tx.witnessHash = id then slotExtra (slotOf cmpctblock id mem extra) tx
      else slotOf cmpctblock id mem extra := by
  unfold slotOf matching
  rw [filter_append, foldl_append]
  split_ifs with h
  · simp [h]
  · simp [h]

end Slots

section Holds

variable {cmpctblock : CBlockHeaderAndShortTxIDs sha256} {shorttxids : ShortIDMap}

/-- The map leads each short id to a place of its own. -/
structure MapsTo (cmpctblock : CBlockHeaderAndShortTxIDs sha256) (shorttxids : ShortIDMap) : Prop where
  keys : shorttxids.keys = cmpctblock.shorttxids.toFinset
  lt : ∀ id pos, shorttxids.lookup id = some pos → pos.toNat < cmpctblock.blockTxCount
  inj : ∀ id id' pos, shorttxids.lookup id = some pos → shorttxids.lookup id' = some pos → id = id'

/-- The variables show the slots. -/
structure Holds (cmpctblock : CBlockHeaderAndShortTxIDs sha256) (shorttxids : ShortIDMap)
    (slots : UInt64 → Slot sha256) (st : MatchState sha256) : Prop where
  lengthAvailable : st.txnAvailable.length = cmpctblock.blockTxCount
  lengthHave : st.haveTxn.length = cmpctblock.blockTxCount
  have_eq : ∀ id pos, shorttxids.lookup id = some pos → st.haveTxn[pos.toNat]? = some (slots id).isSome
  available_eq : ∀ id pos, shorttxids.lookup id = some pos → (slots id).isSome →
    st.txnAvailable[pos.toNat]? = some (slots id).join
  count : st.mempoolCount = (shorttxids.keys.filter (fun id => (slots id).join.isSome)).card

variable {slots slots' : UInt64 → Slot sha256} {st : MatchState sha256}

lemma Holds.congr (h : Holds cmpctblock shorttxids slots st)
    (heq : ∀ id ∈ shorttxids, slots' id = slots id) : Holds cmpctblock shorttxids slots' st := by
  have hlookup : ∀ id pos, shorttxids.lookup id = some pos → slots' id = slots id :=
    fun id pos hpos => heq id (lookup_isSome.mp (by rw [hpos]; rfl))
  refine ⟨h.lengthAvailable, h.lengthHave, ?_, ?_, ?_⟩
  · intro id pos hpos
    rw [hlookup id pos hpos]
    exact h.have_eq id pos hpos
  · intro id pos hpos
    rw [hlookup id pos hpos]
    exact h.available_eq id pos hpos
  · rw [h.count]
    congr 1
    apply Finset.filter_congr
    intro id hid
    rw [heq id (mem_keys.mp hid)]

lemma MapsTo.ne (hmap : MapsTo cmpctblock shorttxids) {id id' : UInt64} {pos pos' : UInt16}
    (hid : shorttxids.lookup id = some pos) (hid' : shorttxids.lookup id' = some pos') (hne : id' ≠ id) :
    pos.toNat ≠ pos'.toNat := by
  intro heq
  rw [UInt16.toNat_inj] at heq
  exact hne (hmap.inj id' id pos (heq ▸ hid') hid)

lemma Holds.fill (hmap : MapsTo cmpctblock shorttxids) (h : Holds cmpctblock shorttxids slots st) {id : UInt64}
    {pos : UInt16} (hid : shorttxids.lookup id = some pos) (hslot : slots id = none) (tx : CTransaction sha256)
    (hnew : slots' id = some (some tx)) (hother : ∀ id', id' ≠ id → slots' id' = slots id') :
    ∃ st', fillPosition st pos.toNat (some tx) = .ok st' ∧ Holds cmpctblock shorttxids slots' st' := by
  have hlt := hmap.lt id pos hid
  unfold fillPosition
  rw [if_pos (h.lengthAvailable ▸ hlt)]
  refine ⟨_, rfl, by simpa using h.lengthAvailable, by simpa using h.lengthHave, ?_, ?_, ?_⟩
  · intro id' pos' hid'
    by_cases hne : id' = id
    · subst hne
      obtain rfl := Option.some.inj (hid.symm.trans hid')
      rw [hnew, getElem?_set_self (h.lengthHave ▸ hlt)]
      rfl
    · rw [hother id' hne, getElem?_set_ne (hmap.ne hid hid' hne)]
      exact h.have_eq id' pos' hid'
  · intro id' pos' hid' hsome
    by_cases hne : id' = id
    · subst hne
      obtain rfl := Option.some.inj (hid.symm.trans hid')
      rw [hnew, getElem?_set_self (h.lengthAvailable ▸ hlt)]
      rfl
    · rw [hother id' hne] at hsome ⊢
      rw [getElem?_set_ne (hmap.ne hid hid' hne)]
      exact h.available_eq id' pos' hid' hsome
  · have hmem : id ∈ shorttxids.keys := mem_keys.mpr (lookup_isSome.mp (by rw [hid]; rfl))
    have hinsert : shorttxids.keys.filter (fun id => (slots' id).join.isSome) =
        insert id (shorttxids.keys.filter (fun id => (slots id).join.isSome)) := by
      ext id'
      rw [Finset.mem_filter, Finset.mem_insert, Finset.mem_filter]
      by_cases hne : id' = id
      · subst hne
        simp [hnew, hmem]
      · rw [hother id' hne]
        simp [hne]
    rw [hinsert, Finset.card_insert_of_notMem (by simp [hslot]), h.count]

lemma Holds.reset (hmap : MapsTo cmpctblock shorttxids) (h : Holds cmpctblock shorttxids slots st) {id : UInt64}
    {pos : UInt16} (hid : shorttxids.lookup id = some pos) {tx : CTransaction sha256}
    (hslot : slots id = some (some tx)) (hnew : slots' id = some none)
    (hother : ∀ id', id' ≠ id → slots' id' = slots id') :
    Holds cmpctblock shorttxids slots' (resetPosition st pos.toNat) := by
  have hlt := hmap.lt id pos hid
  unfold resetPosition
  refine ⟨by simpa using h.lengthAvailable, h.lengthHave, ?_, ?_, ?_⟩
  · intro id' pos' hid'
    by_cases hne : id' = id
    · subst hne
      rw [hnew, h.have_eq id' pos' hid', hslot]
      rfl
    · rw [hother id' hne]
      exact h.have_eq id' pos' hid'
  · intro id' pos' hid' hsome
    by_cases hne : id' = id
    · subst hne
      obtain rfl := Option.some.inj (hid.symm.trans hid')
      rw [hnew, getElem?_set_self (h.lengthAvailable ▸ hlt)]
      rfl
    · rw [hother id' hne] at hsome ⊢
      rw [getElem?_set_ne (hmap.ne hid hid' hne)]
      exact h.available_eq id' pos' hid' hsome
  · have hmem : id ∈ shorttxids.keys := mem_keys.mpr (lookup_isSome.mp (by rw [hid]; rfl))
    have herase : shorttxids.keys.filter (fun id => (slots' id).join.isSome) =
        (shorttxids.keys.filter (fun id => (slots id).join.isSome)).erase id := by
      ext id'
      rw [Finset.mem_filter, Finset.mem_erase, Finset.mem_filter]
      by_cases hne : id' = id
      · subst hne
        simp [hnew]
      · rw [hother id' hne]
        simp [hne]
    rw [herase, Finset.card_erase_of_mem (by simp [hmem, hslot]), h.count]

lemma Holds.count_eq_iff (h : Holds cmpctblock shorttxids slots st) :
    st.mempoolCount = shorttxids.keys.card ↔ ∀ id ∈ shorttxids, (slots id).join.isSome := by
  rw [h.count, Finset.card_filter_eq_iff]
  simp [Finmap.mem_keys]

lemma Holds.matchMempool (hmap : MapsTo cmpctblock shorttxids) (h : Holds cmpctblock shorttxids slots st)
    {pool : CTxMemPool sha256} {txHash : Uint256 × Uint256} {e : CTxMemPoolEntry sha256}
    (he : pool.mapTx.lookup txHash.2 = some e) (hhash : e.tx.witnessHash = txHash.1)
    (hslots : ∀ id, slots' id =
      if cmpctblock.getShortID e.tx.witnessHash = id then slotMempool (slots id) e.tx else slots id) :
    ∃ st', matchMempool cmpctblock shorttxids pool st txHash = .ok st' ∧
      Holds cmpctblock shorttxids slots' st' := by
  unfold PartiallyDownloadedBlock.matchMempool
  rw [← hhash]
  generalize hid : cmpctblock.getShortID e.tx.witnessHash = id at hslots
  have hnew : slots' id = slotMempool (slots id) e.tx := by rw [hslots, if_pos rfl]
  have hother : ∀ id', id' ≠ id → slots' id' = slots id' := by
    intro id' hne
    rw [hslots, if_neg hne.symm]
  cases hlookup : shorttxids.lookup id with
  | none =>
    refine ⟨st, rfl, h.congr ?_⟩
    intro id' hmem
    apply hother id'
    rintro rfl
    rw [← lookup_isSome, hlookup] at hmem
    cases hmem
  | some pos =>
    dsimp only
    rw [h.have_eq id pos hlookup]
    rcases hslot : slots id with _ | _ | a
    · rw [hslot] at hnew
      dsimp only [isSome_none]
      rw [he]
      exact h.fill hmap hlookup hslot e.tx hnew hother
    · rw [h.available_eq id pos hlookup (by rw [hslot]; rfl), hslot]
      refine ⟨st, rfl, h.congr ?_⟩
      intro id' hmem
      by_cases hne : id' = id
      · subst hne
        rw [hnew, hslot]
        rfl
      · exact hother id' hne
    · rw [h.available_eq id pos hlookup (by rw [hslot]; rfl), hslot]
      rw [hslot] at hnew
      exact ⟨_, rfl, h.reset hmap hlookup hslot hnew hother⟩

lemma Holds.matchExtra (hmap : MapsTo cmpctblock shorttxids) (h : Holds cmpctblock shorttxids slots st)
    (tx : CTransaction sha256)
    (hslots : ∀ id, slots' id =
      if cmpctblock.getShortID tx.witnessHash = id then slotExtra (slots id) tx else slots id) :
    ∃ st', matchExtra cmpctblock shorttxids st (ExtraTxn.ofTx tx) = .ok st' ∧
      Holds cmpctblock shorttxids slots' st' := by
  unfold PartiallyDownloadedBlock.matchExtra ExtraTxn.ofTx
  dsimp only
  generalize hid : cmpctblock.getShortID tx.witnessHash = id at hslots
  have hnew : slots' id = slotExtra (slots id) tx := by rw [hslots, if_pos rfl]
  have hother : ∀ id', id' ≠ id → slots' id' = slots id' := by
    intro id' hne
    rw [hslots, if_neg hne.symm]
  have hsame : slots' id = slots id → Holds cmpctblock shorttxids slots' st := by
    intro heq
    apply h.congr
    intro id' _
    by_cases hne : id' = id
    · subst hne
      exact heq
    · exact hother id' hne
  cases hlookup : shorttxids.lookup id with
  | none =>
    refine ⟨st, rfl, h.congr ?_⟩
    intro id' hmem
    apply hother id'
    rintro rfl
    rw [← lookup_isSome, hlookup] at hmem
    cases hmem
  | some pos =>
    dsimp only
    rw [h.have_eq id pos hlookup]
    rcases hslot : slots id with _ | _ | a
    · rw [hslot] at hnew
      dsimp only [isSome_none]
      exact h.fill hmap hlookup hslot tx hnew hother
    · rw [h.available_eq id pos hlookup (by rw [hslot]; rfl), hslot]
      refine ⟨st, rfl, hsame ?_⟩
      rw [hnew, hslot]
      rfl
    · rw [h.available_eq id pos hlookup (by rw [hslot]; rfl), hslot]
      dsimp only [isSome_some, join_some]
      rw [hslot, slotExtra] at hnew
      by_cases hwitness : a.witnessHash ≠ tx.witnessHash
      · rw [if_pos hwitness] at hnew ⊢
        exact ⟨_, rfl, h.reset hmap hlookup hslot hnew hother⟩
      · rw [if_neg hwitness] at hnew ⊢
        exact ⟨st, rfl, hsame (hnew.trans hslot.symm)⟩

end Holds

section Scans

variable {cmpctblock : CBlockHeaderAndShortTxIDs sha256} {shorttxids : ShortIDMap} {α : Type}

/-- Every slot has a transaction. -/
def Found (shorttxids : ShortIDMap) (slots : UInt64 → Slot sha256) : Prop :=
  ∀ id ∈ shorttxids, (slots id).join.isSome

lemma scan_spec (step : MatchState sha256 → α → Except InitStop (MatchState sha256))
    {rel : α → CTransaction sha256 → Prop} (S : List (CTransaction sha256) → UInt64 → Slot sha256)
    (hstep : ∀ seen a tx st, rel a tx → Holds cmpctblock shorttxids (S seen) st →
      ∃ st', step st a = .ok st' ∧ Holds cmpctblock shorttxids (S (seen ++ [tx])) st')
    {as : List α} {txs : List (CTransaction sha256)} (hrel : List.Forall₂ rel as txs) (rest : List α)
    (seen : List (CTransaction sha256)) {st : MatchState sha256} (h : Holds cmpctblock shorttxids (S seen) st) :
    (∃ k st', 0 < k ∧ k ≤ txs.length ∧ Found shorttxids (S (seen ++ txs.take k)) ∧
      (∀ j, 0 < j → j < k → ¬ Found shorttxids (S (seen ++ txs.take j))) ∧
      scan shorttxids step (as ++ rest) st = .ok st' ∧
      Holds cmpctblock shorttxids (S (seen ++ txs.take k)) st') ∨
    ((∀ j, 0 < j → j ≤ txs.length → ¬ Found shorttxids (S (seen ++ txs.take j))) ∧
      ∃ st', scan shorttxids step (as ++ rest) st = scan shorttxids step rest st' ∧
        Holds cmpctblock shorttxids (S (seen ++ txs)) st') := by
  induction hrel generalizing seen st with
  | nil =>
    refine Or.inr ⟨fun j hj hle => ?_, st, rfl, by rwa [append_nil]⟩
    rw [length_nil] at hle
    omega
  | @cons a tx as txs hfirst _ ih =>
    obtain ⟨st₁, hok, h₁⟩ := hstep seen a tx st hfirst h
    have hshift : ∀ j, seen ++ (tx :: txs).take (j + 1) = seen ++ [tx] ++ txs.take j := by
      intro j
      rw [take_succ_cons, append_assoc]
      rfl
    have hone : seen ++ (tx :: txs).take 1 = seen ++ [tx] := by
      rw [hshift 0, take_zero, append_nil]
    have hunfold : scan shorttxids step (a :: (as ++ rest)) st =
        if st₁.mempoolCount = shorttxids.keys.card then .ok st₁
        else scan shorttxids step (as ++ rest) st₁ := by
      rw [scan, hok, ok_bind]
    rw [cons_append, hunfold]
    by_cases hfound : st₁.mempoolCount = shorttxids.keys.card
    · rw [if_pos hfound]
      refine Or.inl ⟨1, st₁, one_pos, ?_, ?_, ?_, rfl, ?_⟩
      · rw [length_cons]
        omega
      · rw [hone]
        exact h₁.count_eq_iff.mp hfound
      · intro j hj hlt
        omega
      · rw [hone]
        exact h₁
    · rw [if_neg hfound]
      have hnot : ¬ Found shorttxids (S (seen ++ [tx])) := fun hall => hfound (h₁.count_eq_iff.mpr hall)
      obtain ⟨k, st', hk, hle, hall, hbefore, hscan, hholds⟩ | ⟨hnone, st', hscan, hholds⟩ := ih (seen ++ [tx]) h₁
      · refine Or.inl ⟨k + 1, st', Nat.succ_pos k, ?_, ?_, ?_, hscan, ?_⟩
        · rw [length_cons]
          omega
        · rwa [hshift]
        · intro j hj hlt
          obtain ⟨l, rfl⟩ := Nat.exists_eq_succ_of_ne_zero hj.ne'
          rw [Nat.succ_eq_add_one, hshift]
          obtain rfl | hl := Nat.eq_zero_or_pos l
          · rwa [take_zero, append_nil]
          · exact hbefore l hl (by omega)
        · rwa [hshift]
      · refine Or.inr ⟨?_, st', hscan, ?_⟩
        · intro j hj hle
          obtain ⟨l, rfl⟩ := Nat.exists_eq_succ_of_ne_zero hj.ne'
          rw [length_cons] at hle
          rw [Nat.succ_eq_add_one, hshift]
          obtain rfl | hl := Nat.eq_zero_or_pos l
          · rwa [take_zero, append_nil]
          · exact hnone l hl (by omega)
        · rw [append_assoc] at hholds
          exact hholds

end Scans

end PartiallyDownloadedBlock

end MutableBitcoin
