import MutableBitcoin.Mempool

/-!
# The index of witness hashes

Compact blocks are rebuilt by a scan over `vTxHashes`, which follows the iterators it holds. Adding an entry appends
to it and removing one puts the last element in its place.
-/

namespace MutableBitcoin
open Lib List Option

namespace CTxMemPool

variable {sha256 : Bytes → Uint256}

section Index

def indexOf (pool : CTxMemPool sha256) (it : Uint256) : Option (Uint256 × ℕ) :=
  (pool.mapTx.lookup it).map (fun e => (e.tx.witnessHash, e.vTxHashesIdx))

/-- `vTxHashes` lists the entries, each at the place it has noted. -/
structure IndexExact (pool : CTxMemPool sha256) : Prop where
  size : pool.vTxHashes.length = pool.mapTx.keys.card
  element : ∀ i hash it, pool.vTxHashes[i]? = some (hash, it) ↔ pool.indexOf it = some (hash, i)

/-- `vTxHashes` and the noted places are unchanged. -/
structure SameIndex (pool pool' : CTxMemPool sha256) : Prop where
  vTxHashes : pool'.vTxHashes = pool.vTxHashes
  indexOf : ∀ it, pool'.indexOf it = pool.indexOf it

variable {pool pool' : CTxMemPool sha256}

lemma mem_mapTx_iff {it : Uint256} : it ∈ pool.mapTx ↔ (pool.indexOf it).isSome := by
  rw [← Finmap.lookup_isSome, indexOf, isSome_map]

lemma SameIndex.refl (pool : CTxMemPool sha256) : SameIndex pool pool := ⟨rfl, fun _ => rfl⟩

lemma SameIndex.trans {pool'' : CTxMemPool sha256} (h : SameIndex pool pool') (h' : SameIndex pool' pool'') :
    SameIndex pool pool'' :=
  ⟨h'.vTxHashes.trans h.vTxHashes, fun it => (h'.indexOf it).trans (h.indexOf it)⟩

lemma SameIndex.of_mapTx (hv : pool'.vTxHashes = pool.vTxHashes) (hm : pool'.mapTx = pool.mapTx) :
    SameIndex pool pool' :=
  ⟨hv, fun it => by rw [CTxMemPool.indexOf, hm, CTxMemPool.indexOf]⟩

lemma LinksChanged.sameIndex (h : LinksChanged pool pool') : SameIndex pool pool' :=
  SameIndex.of_mapTx h.vTxHashes h.mapTx

lemma Modified.sameIndex {s : SetEntries} {f : CTxMemPoolEntry sha256 → Option (CTxMemPoolEntry sha256)}
    (h : Modified pool s f pool')
    (hf : ∀ e e', f e = some e' → e'.tx = e.tx ∧ e'.vTxHashesIdx = e.vTxHashesIdx) : SameIndex pool pool' := by
  refine ⟨by rw [h.rest], ?_⟩
  intro it
  unfold CTxMemPool.indexOf
  by_cases hit : it ∈ s
  · rw [h.inside it hit]
    cases he : pool.mapTx.lookup it with
    | none => rfl
    | some e =>
      obtain ⟨e', he'⟩ := isSome_iff_exists.mp (h.defined it hit e he)
      rw [bind_some, he', map_some, map_some, (hf e e' he').1, (hf e e' he').2]
  · rw [h.outside it hit]

lemma keys_eq_of_indexOf (h : ∀ it, pool'.indexOf it = pool.indexOf it) :
    pool'.mapTx.keys = pool.mapTx.keys := by
  ext it
  rw [Finmap.mem_keys, Finmap.mem_keys, mem_mapTx_iff, mem_mapTx_iff, h]

end Index

section States

variable {e e' : CTxMemPoolEntry sha256}

lemma updateDescendantState_index {size fee count : ℤ} (h : e.updateDescendantState size fee count = some e') :
    e'.tx = e.tx ∧ e'.vTxHashesIdx = e.vTxHashesIdx := by
  unfold CTxMemPoolEntry.updateDescendantState at h
  split_ifs at h
  obtain rfl := some.inj h
  exact ⟨rfl, rfl⟩

lemma updateAncestorState_index {size fee count sigOps : ℤ}
    (h : e.updateAncestorState size fee count sigOps = some e') :
    e'.tx = e.tx ∧ e'.vTxHashesIdx = e.vTxHashesIdx := by
  unfold CTxMemPoolEntry.updateAncestorState at h
  split_ifs at h
  obtain rfl := some.inj h
  exact ⟨rfl, rfl⟩

end States

section Steps

variable {pool pool' : CTxMemPool sha256}

lemma sameIndex_applyDelta {it : Uint256} (h : pool.applyDelta it = some pool') : SameIndex pool pool' := by
  unfold applyDelta at h
  split at h
  · obtain rfl := some.inj h
    exact SameIndex.refl pool
  · split_ifs at h
    · apply (modified_of_modify h).sameIndex
      intro e e' he
      obtain rfl := some.inj he
      exact ⟨rfl, rfl⟩
    · obtain rfl := some.inj h
      exact SameIndex.refl pool

lemma sameIndex_updateAncestorsOf {add : Bool} {it : Uint256} {s : SetEntries}
    (h : pool.updateAncestorsOf add it s = some pool') : SameIndex pool pool' := by
  unfold updateAncestorsOf at h
  refine SameIndex.trans ?_ ((modified_of_modifyAll h).sameIndex (fun _ _ => updateDescendantState_index))
  exact (linksChanged_foldl _ (fun _ _ => linksChanged_updateChild _ _ _ _)).sameIndex

lemma sameIndex_updateEntryForAncestors {it : Uint256} {s : SetEntries}
    (h : pool.updateEntryForAncestors it s = some pool') : SameIndex pool pool' :=
  (modified_of_modify h).sameIndex (fun _ _ => updateAncestorState_index)

/-- The index lists all entries but one. -/
structure IndexBut (pool : CTxMemPool sha256) (it : Uint256) (witnessHash : Uint256) : Prop where
  size : pool.vTxHashes.length + 1 = pool.mapTx.keys.card
  element : ∀ i hash id, pool.vTxHashes[i]? = some (hash, id) ↔ id ≠ it ∧ pool.indexOf id = some (hash, i)
  present : ∃ e, pool.mapTx.lookup it = some e ∧ e.tx.witnessHash = witnessHash

lemma IndexExact.insertEntry (h : IndexExact pool) {entry : CTxMemPoolEntry sha256}
    (hnew : entry.tx.hash ∉ pool.mapTx) :
    IndexBut (pool.insertEntry entry) entry.tx.hash entry.tx.witnessHash := by
  have hmap : (pool.insertEntry entry).mapTx = pool.mapTx.insert entry.tx.hash entry := if_neg hnew
  have hkeys : (pool.insertEntry entry).mapTx.keys = insert entry.tx.hash pool.mapTx.keys := by
    ext id
    rw [hmap, Finmap.mem_keys, Finmap.mem_insert, Finset.mem_insert, Finmap.mem_keys]
  refine ⟨?_, ?_, ⟨entry, by rw [hmap, Finmap.lookup_insert], rfl⟩⟩
  · rw [hkeys, Finset.card_insert_of_notMem (by rwa [Finmap.mem_keys]), ← h.size]
    rfl
  · intro i hash id
    refine (h.element i hash id).trans ?_
    by_cases hid : id = entry.tx.hash
    · have hnone : pool.indexOf id = none := by
        rw [indexOf, hid, Finmap.lookup_eq_none.mpr hnew]
        rfl
      rw [hnone]
      simp [hid]
    · have hsame : (pool.insertEntry entry).indexOf id = pool.indexOf id := by
        rw [indexOf, hmap, Finmap.lookup_insert_of_ne _ hid, indexOf]
      simp [hsame, hid]

lemma IndexBut.same {it witnessHash : Uint256} (h : IndexBut pool it witnessHash) (hs : SameIndex pool pool') :
    IndexBut pool' it witnessHash := by
  refine ⟨?_, ?_, ?_⟩
  · rw [hs.vTxHashes, keys_eq_of_indexOf hs.indexOf, h.size]
  · intro i hash id
    rw [hs.vTxHashes, hs.indexOf, h.element]
  · obtain ⟨e, he, hhash⟩ := h.present
    have hindex := hs.indexOf it
    unfold indexOf at hindex
    rw [he, map_some] at hindex
    obtain ⟨e', he', heq⟩ := map_eq_some_iff.mp hindex
    exact ⟨e', he', (Prod.mk.inj heq).1.trans hhash⟩

lemma IndexBut.appendHash {it witnessHash : Uint256} (h : IndexBut pool it witnessHash)
    (hstep : pool.appendHash it witnessHash = some pool') : IndexExact pool' := by
  have hmod := modified_of_modify hstep
  obtain ⟨e, he, hhash⟩ := h.present
  have hv : pool'.vTxHashes = pool.vTxHashes ++ [(witnessHash, it)] := by rw [hmod.rest]
  have hnew : pool'.indexOf it = some (witnessHash, pool.vTxHashes.length) := by
    rw [indexOf, hmod.inside it (Finset.mem_singleton_self it)]
    dsimp only
    rw [he, ← hhash]
    rfl
  have hold : ∀ id, id ≠ it → pool'.indexOf id = pool.indexOf id := by
    intro id hid
    rw [indexOf, hmod.outside id (fun h => hid (Finset.mem_singleton.mp h)), indexOf]
  refine ⟨?_, ?_⟩
  · have hkeys : pool'.mapTx.keys = pool.mapTx.keys := by
      ext id
      rw [Finmap.mem_keys, Finmap.mem_keys, mem_mapTx_iff, mem_mapTx_iff]
      by_cases hid : id = it
      · rw [hid, hnew, indexOf, he]
        rfl
      · rw [hold id hid]
    rw [hv, hkeys, ← h.size, length_append, length_singleton]
  · intro i hash id
    rw [hv]
    obtain hlt | hge := lt_or_ge i pool.vTxHashes.length
    · rw [getElem?_append_left hlt, h.element]
      by_cases hid : id = it
      · rw [hid, hnew]
        simp only [ne_eq, not_true_eq_false, false_and, some.injEq, Prod.mk.injEq, false_iff, not_and]
        omega
      · rw [hold id hid]
        simp [hid]
    · rw [getElem?_append_right hge]
      by_cases hid : id = it
      · rw [hid, hnew]
        obtain rfl | hne := eq_or_ne i pool.vTxHashes.length
        · simp
        · have hsub : i - pool.vTxHashes.length ≠ 0 := by omega
          simp [hsub, hne.symm]
      · have hnone : ¬ (pool.vTxHashes[i]? = some (hash, id)) := by
          rw [getElem?_eq_none hge]
          exact fun h => nomatch h
        rw [h.element] at hnone
        rw [hold id hid]
        simp only [ne_eq, hid, not_false_eq_true, true_and] at hnone
        simp only [hnone, iff_false]
        intro hget
        have hmem := mem_of_getElem? hget
        rw [mem_singleton, Prod.mk.injEq] at hmem
        exact hid hmem.2

lemma IndexExact.addUnchecked (h : IndexExact pool) {entry : CTxMemPoolEntry sha256} {setAncestors : SetEntries}
    (hnew : entry.tx.hash ∉ pool.mapTx) (hstep : pool.addUnchecked entry setAncestors = some pool') :
    IndexExact pool' := by
  unfold CTxMemPool.addUnchecked at hstep
  obtain ⟨pool₁, h₁, hstep⟩ := bind_eq_some_iff.mp hstep
  obtain ⟨pool₂, h₂, hstep⟩ := bind_eq_some_iff.mp hstep
  obtain ⟨pool₃, h₃, hstep⟩ := bind_eq_some_iff.mp hstep
  have hbut₁ := (h.insertEntry hnew).same (sameIndex_applyDelta h₁)
  obtain ⟨e, he, hhash⟩ := hbut₁.present
  dsimp only at h₂ hstep
  rw [he, map_some, getD_some] at h₂ hstep
  rw [hhash] at hstep
  have hspend : SameIndex pool₁
      ({ pool₁ with cachedInnerUsage := pool₁.cachedInnerUsage + entry.nUsageSize }.spendInputs e.tx) :=
    SameIndex.of_mapTx rfl rfl
  have hbut₃ := hbut₁.same (hspend.trans ((linksChanged_linkParents _ _).sameIndex.trans
    ((sameIndex_updateAncestorsOf h₂).trans (sameIndex_updateEntryForAncestors h₃))))
  have hsize : SameIndex pool₃ { pool₃ with totalTxSize := pool₃.totalTxSize + entry.getTxSize } :=
    SameIndex.of_mapTx rfl rfl
  exact (hbut₃.same hsize).appendHash hstep

lemma IndexExact.eq_of_indexOf (h : IndexExact pool) {id id' hash hash' : Uint256} {i : ℕ}
    (hid : pool.indexOf id = some (hash, i)) (hid' : pool.indexOf id' = some (hash', i)) : id = id' := by
  have hget := (h.element i hash id).mpr hid
  rw [(h.element i hash' id').mpr hid', some.injEq, Prod.mk.injEq] at hget
  exact hget.2.symm

/-- The last element has taken the place of one that goes. -/
structure IndexDropped (pool pool' : CTxMemPool sha256) (it : Uint256) (idx : ℕ) (back : Uint256 × Uint256) :
    Prop where
  vTxHashes : pool'.vTxHashes = (pool.vTxHashes.set idx back).dropLast
  removed : pool'.indexOf it = none
  moved : back.2 ≠ it → pool'.indexOf back.2 = some (back.1, idx)
  others : ∀ id, id ≠ it → id ≠ back.2 → pool'.indexOf id = pool.indexOf id

lemma IndexExact.dropped (h : IndexExact pool) {it hash : Uint256} {idx : ℕ} {back : Uint256 × Uint256}
    (hit : pool.indexOf it = some (hash, idx)) (hback : pool.vTxHashes.getLast? = some back)
    (hdrop : IndexDropped pool pool' it idx back) : IndexExact pool' := by
  have hlast : pool.vTxHashes[pool.vTxHashes.length - 1]? = some back := by
    rw [← getLast?_eq_getElem?, hback]
  have hbackIndex : pool.indexOf back.2 = some (back.1, pool.vTxHashes.length - 1) :=
    (h.element _ back.1 back.2).mp hlast
  have hidx : idx < pool.vTxHashes.length := (List.getElem?_eq_some_iff.mp ((h.element _ _ _).mpr hit)).1
  have hmoved : back.2 ≠ it → idx ≠ pool.vTxHashes.length - 1 := by
    rintro hne rfl
    exact hne (h.eq_of_indexOf hbackIndex hit)
  have hget : ∀ i, pool'.vTxHashes[i]? =
      if i < pool.vTxHashes.length - 1 then (if i = idx then some back else pool.vTxHashes[i]?) else none := by
    intro i
    rw [hdrop.vTxHashes, getElem?_dropLast, length_set]
    split_ifs with hlt hi
    · rw [hi, getElem?_set_self hidx]
    · rw [getElem?_set_ne (Ne.symm hi)]
    · rfl
  refine ⟨?_, ?_⟩
  · have hkeys : pool'.mapTx.keys = pool.mapTx.keys.erase it := by
      ext id
      rw [Finset.mem_erase, Finmap.mem_keys, Finmap.mem_keys, mem_mapTx_iff, mem_mapTx_iff]
      by_cases hid : id = it
      · rw [hid, hdrop.removed]
        simp
      · by_cases hid' : id = back.2
        · rw [hid', hdrop.moved (hid' ▸ hid), hbackIndex]
          simp [← hid', hid]
        · rw [hdrop.others id hid hid']
          simp [hid]
    have hmem : it ∈ pool.mapTx.keys := by
      rw [Finmap.mem_keys, mem_mapTx_iff, hit]
      rfl
    rw [hdrop.vTxHashes, hkeys, Finset.card_erase_of_mem hmem, ← h.size, length_dropLast, length_set]
  · intro i hash' id
    have hold := h.element i hash' id
    rw [hget]
    by_cases hid : id = it
    · -- Nothing points to the removed entry.
      rw [hid, hdrop.removed]
      rw [hid, hit, some.injEq, Prod.mk.injEq] at hold
      split_ifs with hlt hi
      · simp only [some.injEq, iff_false]
        rintro rfl
        have := (Prod.mk.inj (some.inj (hbackIndex.symm.trans hit))).2
        omega
      · rw [hold]
        simp [Ne.symm hi]
      · simp
    · by_cases hid' : id = back.2
      · have hne : back.2 ≠ it := hid' ▸ hid
        have hpos := hmoved hne
        rw [hid', hdrop.moved hne]
        rw [hid', hbackIndex, some.injEq, Prod.mk.injEq] at hold
        split_ifs with hlt hi
        · obtain ⟨hash₀, id₀⟩ := back
          simp [hi]
        · rw [hold]
          have hi' : ¬ idx = i := fun h => hi h.symm
          have hlast' : ¬ pool.vTxHashes.length - 1 = i := by omega
          simp [hi', hlast']
        · have hi' : ¬ idx = i := by omega
          simp [hi']
      · rw [hdrop.others id hid hid']
        split_ifs with hlt hi
        · rw [← hold, hi, (h.element idx hash it).mpr hit]
          have h₁ : ¬ some back = some (hash', id) := fun heq => hid' (by rw [some.inj heq])
          have h₂ : ¬ some (hash, it) = some (hash', id) := by
            intro heq
            exact hid (Prod.mk.inj (some.inj heq)).2.symm
          simp only [h₁, h₂]
        · exact hold
        · rw [← hold]
          simp only [false_iff]
          intro hget'
          have hi : i = pool.vTxHashes.length - 1 := by
            have := (List.getElem?_eq_some_iff.mp hget').1
            omega
          rw [hi, hlast] at hget'
          exact hid' (by rw [some.inj hget'])

lemma dropHash_spec (pool : CTxMemPool sha256) {idx : ℕ} {back : Uint256 × Uint256} (hback : pool.vTxHashes.getLast? = some back)
    (hidx : idx < pool.vTxHashes.length) {e : CTxMemPoolEntry sha256} (he : pool.mapTx.lookup back.2 = some e)
    (heIdx : e.vTxHashesIdx = pool.vTxHashes.length - 1) :
    (pool.dropHash idx).vTxHashes = (pool.vTxHashes.set idx back).dropLast ∧
      ∀ id, (pool.dropHash idx).mapTx.lookup id =
        if id = back.2 then some { e with vTxHashesIdx := idx } else pool.mapTx.lookup id := by
  unfold dropHash
  by_cases hlong : 1 < pool.vTxHashes.length
  · rw [if_pos hlong, hback]
    dsimp only
    rw [he]
    exact ⟨rfl, fun id => lookup_insert_apply _ _ _ id⟩
  · rw [if_neg hlong]
    refine ⟨?_, ?_⟩
    · symm
      rw [← length_eq_zero_iff, length_dropLast, length_set]
      omega
    · intro id
      dsimp only
      split_ifs with hid
      · have hsame : ({ e with vTxHashesIdx := idx } : CTxMemPoolEntry sha256) = e := by
          rw [show idx = e.vTxHashesIdx by omega]
        rw [hid, he, hsame]
      · rfl

lemma IndexExact.removeUnchecked (h : IndexExact pool) (it : Uint256) : IndexExact (pool.removeUnchecked it) := by
  unfold CTxMemPool.removeUnchecked
  cases he : pool.mapTx.lookup it with
  | none => exact h
  | some e =>
    have hit : pool.indexOf it = some (e.tx.witnessHash, e.vTxHashesIdx) := by
      rw [indexOf, he]
      rfl
    have hsome := (h.element _ _ _).mpr hit
    have hidx := (List.getElem?_eq_some_iff.mp hsome).1
    have hne : pool.vTxHashes ≠ [] := ne_nil_of_length_pos (by omega)
    have hback := getLast?_eq_some_getLast hne
    generalize pool.vTxHashes.getLast hne = back at hback
    have hlast : pool.vTxHashes[pool.vTxHashes.length - 1]? = some back := by
      rw [← getLast?_eq_getElem?, hback]
    have hbackIndex := (h.element _ back.1 back.2).mp hlast
    obtain ⟨eb, heb, heq⟩ := map_eq_some_iff.mp hbackIndex
    obtain ⟨hebHash, hebIdx⟩ := Prod.mk.inj heq
    apply h.dropped hit hback
    obtain ⟨hv, hlookup⟩ := dropHash_spec { pool with
      mapNextTx := e.tx.vin.foldl (fun m (txin : CTxIn) => m.erase txin.prevout) pool.mapNextTx }
      hback hidx heb hebIdx
    refine ⟨hv, ?_, ?_, ?_⟩
    · rw [indexOf, Finmap.lookup_erase]
      rfl
    · intro hbackNe
      rw [indexOf, Finmap.lookup_erase_ne hbackNe, hlookup, if_pos rfl, ← hebHash]
      rfl
    · intro id hid hid'
      rw [indexOf, Finmap.lookup_erase_ne hid, hlookup, if_neg hid', indexOf]

end Steps

section Runs

/-- The calls that change the index. -/
inductive IndexCall (sha256 : Bytes → Uint256) where
  | addUnchecked (entry : CTxMemPoolEntry sha256) (setAncestors : SetEntries)
  | removeUnchecked (it : Uint256)
  | clear

def IndexCall.run (pool : CTxMemPool sha256) : IndexCall sha256 → Option (CTxMemPool sha256)
  | addUnchecked entry setAncestors => pool.addUnchecked entry setAncestors
  | removeUnchecked it => some (pool.removeUnchecked it)
  | clear => some pool.clear

def IndexCall.InStep (pool : CTxMemPool sha256) : IndexCall sha256 → Prop
  | addUnchecked entry _ => entry.tx.hash ∉ pool.mapTx
  | removeUnchecked _ => True
  | clear => pool.mapTx.keys = ∅

/-- The pools that these calls lead to. -/
inductive IndexReachable : CTxMemPool sha256 → Prop
  | empty : IndexReachable CTxMemPool.empty
  | call {pool pool' : CTxMemPool sha256} (call : IndexCall sha256) (h : IndexReachable pool)
      (hin : call.InStep pool) (hrun : call.run pool = some pool') : IndexReachable pool'

lemma indexExact_empty : IndexExact (CTxMemPool.empty : CTxMemPool sha256) :=
  ⟨rfl, fun i hash it => by simp [CTxMemPool.empty, indexOf]⟩

lemma IndexExact.call {pool pool' : CTxMemPool sha256} {call : IndexCall sha256} (h : IndexExact pool)
    (hin : call.InStep pool) (hrun : call.run pool = some pool') : IndexExact pool' := by
  cases call with
  | addUnchecked entry setAncestors => exact h.addUnchecked hin hrun
  | removeUnchecked it =>
    obtain rfl := some.inj hrun
    exact h.removeUnchecked it
  | clear =>
    obtain rfl := some.inj hrun
    have hsize := h.size
    rw [show pool.mapTx.keys = ∅ from hin, Finset.card_empty, length_eq_zero_iff] at hsize
    exact ⟨by simp [CTxMemPool.clear, hsize], fun i hash it => by simp [CTxMemPool.clear, hsize, indexOf]⟩

/-- In every run that adds only new entries and clears only an empty pool, the index is exact, and the scan
follows only iterators of entries. -/
theorem indexExact_of_indexReachable (pool : CTxMemPool sha256) (h : IndexReachable pool) :
    IndexExact pool ∧ ∀ i hash it, pool.vTxHashes[i]? = some (hash, it) →
      ∃ e, pool.mapTx.lookup it = some e ∧ e.tx.witnessHash = hash ∧ e.vTxHashesIdx = i := by
  have hexact : IndexExact pool := by
    induction h with
    | empty => exact indexExact_empty
    | call call _ hin hrun ih => exact ih.call hin hrun
  refine ⟨hexact, ?_⟩
  intro i hash it hget
  obtain ⟨e, he, heq⟩ := map_eq_some_iff.mp ((hexact.element i hash it).mp hget)
  exact ⟨e, he, Prod.mk.inj heq⟩

def pooledTx : CTransaction cSHA256 where
  toCMutableTransaction := ⟨BaseBlob.null 128, BaseBlob.null 128, BaseBlob.null 128, BaseBlob.null 128, 1,
    [⟨⟨BaseBlob.ofNat 32 1, 0⟩, [], SEQUENCE_FINAL, []⟩], [⟨1000, [0x51]⟩], 0⟩
  hash := BaseBlob.ofNat 32 0x16118863d8d2f1af0b378652ab058a25c3e3df3b7bbf048ef457e96d1e32e70a
  computeHash_eq := by decide +kernel

def pooledEntry : CTxMemPoolEntry cSHA256 := CTxMemPoolEntry.make pooledTx 500 0 0 700

def laterTx : CTransaction cSHA256 where
  toCMutableTransaction := ⟨BaseBlob.null 128, BaseBlob.null 128, BaseBlob.null 128, BaseBlob.null 128, 1,
    [⟨⟨BaseBlob.ofNat 32 2, 0⟩, [], SEQUENCE_FINAL, []⟩], [⟨1000, [0x51]⟩], 0⟩
  hash := BaseBlob.ofNat 32 0x40d4aca7164a29f933b254f97882dd204455df055165dbcacf6d2914fd87fa64
  computeHash_eq := by decide +kernel

/-- The second entry takes the place of the first in the vector. -/
theorem indexExact_of_indexReachable_pooledEntry :
    ∃ pool pool', CTxMemPool.empty.addUnchecked pooledEntry ∅ = some pool ∧
      pool.addUnchecked (CTxMemPoolEntry.make laterTx 500 0 0 700) ∅ = some pool' ∧
      (pool'.removeUnchecked pooledTx.hash).vTxHashes = [(laterTx.witnessHash, laterTx.hash)] ∧
      IndexExact (pool'.removeUnchecked pooledTx.hash) := by
  let later : CTxMemPoolEntry cSHA256 := CTxMemPoolEntry.make laterTx 500 0 0 700
  have hrun : ((CTxMemPool.empty.addUnchecked pooledEntry ∅).bind fun pool => (pool.addUnchecked later ∅).map fun pool' =>
      (decide (laterTx.hash ∉ pool.mapTx), (pool'.removeUnchecked pooledTx.hash).vTxHashes)) =
      some (true, [(laterTx.witnessHash, laterTx.hash)]) := by
    decide +kernel
  obtain ⟨pool, hpool, hrest⟩ := bind_eq_some_iff.mp hrun
  obtain ⟨pool', hpool', heq⟩ := map_eq_some_iff.mp hrest
  obtain ⟨hnew, hhashes⟩ := Prod.mk.inj heq
  have hnotMem : laterTx.hash ∉ pool.mapTx := of_decide_eq_true hnew
  have hfirst : IndexReachable pool := .call (.addUnchecked pooledEntry ∅) .empty Finmap.notMem_empty hpool
  have hsecond : IndexReachable pool' := .call (.addUnchecked later ∅) hfirst hnotMem hpool'
  have hremoved : IndexReachable (pool'.removeUnchecked pooledTx.hash) :=
    .call (.removeUnchecked pooledTx.hash) hsecond trivial rfl
  exact ⟨pool, pool', hpool, hpool', hhashes, (indexExact_of_indexReachable _ hremoved).1⟩

/-- Clearing a pool with an entry leaves its element in the vector. -/
theorem not_indexExact_clear :
    ∃ pool, CTxMemPool.empty.addUnchecked pooledEntry ∅ = some pool ∧ ¬ IndexExact pool.clear ∧
      pool.clear.mapTx.keys.card = 0 ∧ pool.clear.vTxHashes.length = 1 := by
  have hsome : (CTxMemPool.empty.addUnchecked pooledEntry ∅).isSome = true := by decide +kernel
  obtain ⟨pool, hpool⟩ := isSome_iff_exists.mp hsome
  have hlength : pool.clear.vTxHashes.length = 1 := by
    have h : (CTxMemPool.empty.addUnchecked pooledEntry ∅).map (fun pool => pool.clear.vTxHashes.length) =
        some 1 := by decide +kernel
    rw [hpool] at h
    exact some.inj h
  refine ⟨pool, hpool, ?_, rfl, hlength⟩
  intro hexact
  have hsize := hexact.size
  rw [hlength] at hsize
  exact one_ne_zero hsize

end Runs

end CTxMemPool

/-! ## Entries keep their transactions -/

namespace CTxMemPool

variable {sha256 : Bytes → Uint256}

section Kept

variable {pool pool' : CTxMemPool sha256}

/-- What stays keeps its transaction. -/
def KeptFrom (pool pool' : CTxMemPool sha256) : Prop :=
  ∀ it e', pool'.mapTx.lookup it = some e' → ∃ e, pool.mapTx.lookup it = some e ∧ e.tx = e'.tx

lemma KeptFrom.refl (pool : CTxMemPool sha256) : KeptFrom pool pool := fun _ e he => ⟨e, he, rfl⟩

lemma KeptFrom.trans {pool'' : CTxMemPool sha256} (h : KeptFrom pool pool') (h' : KeptFrom pool' pool'') :
    KeptFrom pool pool'' := by
  intro it e'' he''
  obtain ⟨e', he', htx'⟩ := h' it e'' he''
  obtain ⟨e, he, htx⟩ := h it e' he'
  exact ⟨e, he, htx.trans htx'⟩

lemma KeptFrom.of_mapTx (h : pool'.mapTx = pool.mapTx) : KeptFrom pool pool' := by
  intro it e he
  exact ⟨e, h ▸ he, rfl⟩

lemma Modified.keptFrom {s : SetEntries} {f : CTxMemPoolEntry sha256 → Option (CTxMemPoolEntry sha256)}
    (h : Modified pool s f pool') (hf : ∀ e e', f e = some e' → e'.tx = e.tx) : KeptFrom pool pool' := by
  intro it e' he'
  by_cases hit : it ∈ s
  · rw [h.inside it hit] at he'
    obtain ⟨e, he, hfe⟩ := bind_eq_some_iff.mp he'
    exact ⟨e, he, (hf e e' hfe).symm⟩
  · rw [h.outside it hit] at he'
    exact ⟨e', he', rfl⟩

lemma keptFrom_foldlM {ι : Type} {l : List ι} {step : CTxMemPool sha256 → ι → Option (CTxMemPool sha256)}
    (hstep : ∀ pool pool' i, step pool i = some pool' → KeptFrom pool pool') (h : l.foldlM step pool = some pool') :
    KeptFrom pool pool' := by
  induction l generalizing pool with
  | nil =>
    obtain rfl := some.inj h
    exact KeptFrom.refl pool
  | cons i l ih =>
    rw [foldlM_cons] at h
    obtain ⟨mid, hmid, h⟩ := bind_eq_some_iff.mp h
    exact (hstep pool mid i hmid).trans (ih h)

lemma keptFrom_foldl {ι : Type} (l : List ι) {step : CTxMemPool sha256 → ι → CTxMemPool sha256}
    (hstep : ∀ pool i, KeptFrom pool (step pool i)) : KeptFrom pool (l.foldl step pool) := by
  induction l generalizing pool with
  | nil => exact KeptFrom.refl pool
  | cons i l ih => exact (hstep pool i).trans ih

lemma keptFrom_updateAncestorsOf {add : Bool} {it : Uint256} {s : SetEntries}
    (h : pool.updateAncestorsOf add it s = some pool') : KeptFrom pool pool' := by
  unfold updateAncestorsOf at h
  refine KeptFrom.trans ?_ ((modified_of_modifyAll h).keptFrom fun _ _ he => (updateDescendantState_index he).1)
  exact KeptFrom.of_mapTx (linksChanged_foldl _ (fun _ _ => linksChanged_updateChild _ _ _ _)).mapTx

lemma keptFrom_updateForRemoveFromMempool {s : SetEntries} {updateDescendants : Bool}
    (h : pool.updateForRemoveFromMempool s updateDescendants = some pool') : KeptFrom pool pool' := by
  unfold updateForRemoveFromMempool at h
  obtain ⟨pool₁, h₁, h⟩ := bind_eq_some_iff.mp h
  obtain ⟨pool₂, h₂, h⟩ := bind_eq_some_iff.mp h
  obtain rfl := some.inj h
  have hkept₁ : KeptFrom pool pool₁ := by
    split_ifs at h₁
    · exact keptFrom_foldlM (fun _ _ _ hstep =>
        (modified_of_modifyAll hstep).keptFrom fun _ _ he => (updateAncestorState_index he).1) h₁
    · obtain rfl := some.inj h₁
      exact KeptFrom.refl pool
  have hkept₂ : KeptFrom pool₁ pool₂ := keptFrom_foldlM (fun _ _ _ => keptFrom_updateAncestorsOf) h₂
  refine (hkept₁.trans hkept₂).trans (keptFrom_foldl _ fun cur it => ?_)
  exact KeptFrom.of_mapTx (linksChanged_foldl _ (fun _ _ => linksChanged_updateParent _ _ _ _)).mapTx

lemma keptFrom_dropHash (idx : ℕ) : KeptFrom pool (pool.dropHash idx) := by
  unfold dropHash
  split_ifs
  · cases pool.vTxHashes.getLast? with
    | none => exact KeptFrom.refl pool
    | some back =>
      intro it e' he'
      dsimp only at he'
      cases hback : pool.mapTx.lookup back.2 with
      | none =>
        rw [hback] at he'
        exact ⟨e', he', rfl⟩
      | some e =>
        rw [hback] at he'
        dsimp only at he'
        rw [lookup_insert_apply] at he'
        split_ifs at he' with hit
        · rw [some.injEq] at he'
          exact ⟨e, hit ▸ hback, he' ▸ rfl⟩
        · exact ⟨e', he', rfl⟩
  · exact KeptFrom.of_mapTx rfl

lemma keptFrom_removeUnchecked (it : Uint256) : KeptFrom pool (pool.removeUnchecked it) := by
  unfold removeUnchecked
  cases hit : pool.mapTx.lookup it with
  | none => exact KeptFrom.refl pool
  | some e =>
    intro id e' he'
    dsimp only at he'
    rw [lookup_erase_apply] at he'
    split_ifs at he'
    obtain ⟨e₀, he₀, htx⟩ := keptFrom_dropHash _ id e' he'
    exact ⟨e₀, he₀, htx⟩

lemma keptFrom_removeStaged {stage : SetEntries} {updateDescendants : Bool}
    (h : pool.removeStaged stage updateDescendants = some pool') : KeptFrom pool pool' := by
  unfold removeStaged at h
  obtain ⟨mid, hmid, h⟩ := bind_eq_some_iff.mp h
  obtain rfl := some.inj h
  exact (keptFrom_updateForRemoveFromMempool hmid).trans (keptFrom_foldl _ fun _ it => keptFrom_removeUnchecked it)

lemma keptFrom_trimToSizeLoop {lowest : CTxMemPool sha256 → Uint256} {dynamicMemoryUsage : CTxMemPool sha256 → ℕ}
    {sizelimit fuel : ℕ} (h : trimToSizeLoop lowest dynamicMemoryUsage sizelimit fuel pool = some pool') :
    KeptFrom pool pool' := by
  induction fuel generalizing pool with
  | zero =>
    obtain rfl := some.inj h
    exact KeptFrom.refl pool
  | succ fuel ih =>
    unfold trimToSizeLoop at h
    split_ifs at h
    · obtain ⟨mid, hmid, h⟩ := bind_eq_some_iff.mp h
      exact (keptFrom_removeStaged hmid).trans (ih h)
    · obtain rfl := some.inj h
      exact KeptFrom.refl pool

lemma keptFrom_addUnchecked {entry : CTxMemPoolEntry sha256} {setAncestors : SetEntries}
    (h : pool.addUnchecked entry setAncestors = some pool') : KeptFrom (pool.insertEntry entry) pool' := by
  unfold addUnchecked at h
  obtain ⟨pool₁, h₁, h⟩ := bind_eq_some_iff.mp h
  obtain ⟨pool₂, h₂, h⟩ := bind_eq_some_iff.mp h
  obtain ⟨pool₃, h₃, h⟩ := bind_eq_some_iff.mp h
  have hkept₁ : KeptFrom (pool.insertEntry entry) pool₁ := by
    unfold applyDelta at h₁
    split at h₁
    · obtain rfl := some.inj h₁
      exact KeptFrom.refl _
    · split_ifs at h₁
      · refine (modified_of_modify h₁).keptFrom fun e e' he => ?_
        obtain rfl := some.inj he
        rfl
      · obtain rfl := some.inj h₁
        exact KeptFrom.refl _
  have hkept₂ : KeptFrom pool₁ pool₂ := by
    refine KeptFrom.trans (KeptFrom.of_mapTx ?_) (keptFrom_updateAncestorsOf h₂)
    rw [(linksChanged_linkParents _ _).mapTx]
    rfl
  have hkept₃ : KeptFrom pool₂ pool₃ :=
    (modified_of_modify h₃).keptFrom fun _ _ he => (updateAncestorState_index he).1
  refine ((hkept₁.trans hkept₂).trans hkept₃).trans ?_
  refine (modified_of_modify h).keptFrom fun e e' he => ?_
  obtain rfl := some.inj he
  rfl

lemma keptFrom_removeRecursive {origTx : CTransaction sha256} (h : pool.removeRecursive origTx = some pool') :
    KeptFrom pool pool' := by
  unfold removeRecursive at h
  split_ifs at h
  exact keptFrom_removeStaged h

lemma keptFrom_removeConflict {tx : CTransaction sha256} {txin : CTxIn} (h : pool.removeConflict tx txin = some pool') :
    KeptFrom pool pool' := by
  unfold removeConflict at h
  split at h
  · obtain rfl := some.inj h
    exact KeptFrom.refl pool
  · split_ifs at h
    · have hkept := keptFrom_removeRecursive h
      exact hkept
    · obtain rfl := some.inj h
      exact KeptFrom.refl pool

lemma keptFrom_removeForBlock {vtx : List (CTransaction sha256)} (h : pool.removeForBlock vtx = some pool') :
    KeptFrom pool pool' := by
  refine keptFrom_foldlM (fun cur next tx hstep => ?_) h
  unfold removeForBlockTx at hstep
  obtain ⟨mid, hmid, hstep⟩ := bind_eq_some_iff.mp hstep
  obtain ⟨mid', hmid', hstep⟩ := bind_eq_some_iff.mp hstep
  obtain rfl := some.inj hstep
  have hkept : KeptFrom cur mid := by
    split_ifs at hmid
    · exact keptFrom_removeStaged hmid
    · obtain rfl := some.inj hmid
      exact KeptFrom.refl cur
  exact (hkept.trans (keptFrom_foldlM (fun _ _ _ => keptFrom_removeConflict) hmid')).trans (KeptFrom.of_mapTx rfl)

lemma keptFrom_prioritiseTransaction {hash : Uint256} {nFeeDelta : ℤ}
    (h : pool.prioritiseTransaction hash nFeeDelta = some pool') : KeptFrom pool pool' := by
  unfold prioritiseTransaction at h
  dsimp only at h
  split_ifs at h
  · obtain ⟨pool₁, h₁, h⟩ := bind_eq_some_iff.mp h
    obtain ⟨pool₂, h₂, h⟩ := bind_eq_some_iff.mp h
    have hkept₁ : KeptFrom pool pool₁ := by
      refine KeptFrom.trans (KeptFrom.of_mapTx rfl) ((modified_of_modify h₁).keptFrom fun e e' he => ?_)
      obtain rfl := some.inj he
      rfl
    exact (hkept₁.trans ((modified_of_modifyAll h₂).keptFrom fun _ _ he => (updateDescendantState_index he).1)).trans
      ((modified_of_modifyAll h).keptFrom fun _ _ he => (updateAncestorState_index he).1)
  · obtain rfl := some.inj h
    exact KeptFrom.of_mapTx rfl

lemma keptFrom_updateTransactionFromBlock {setAlreadyIncluded : SetEntries} {st st' : CTxMemPool sha256 × CacheMap}
    {hash : Uint256} (h : updateTransactionFromBlock setAlreadyIncluded st hash = some st') :
    KeptFrom st.1 st'.1 := by
  unfold updateTransactionFromBlock at h
  split_ifs at h
  · unfold updateForDescendants at h
    obtain ⟨pool₁, h₁, h⟩ := bind_eq_some_iff.mp h
    obtain ⟨pool₂, h₂, h⟩ := bind_eq_some_iff.mp h
    obtain rfl := some.inj h
    have hlinks : ∀ l : List Uint256, KeptFrom st.1
        (l.foldl (fun pool child => (pool.updateChild hash child true).updateParent child hash true) st.1) :=
      fun l => KeptFrom.of_mapTx (linksChanged_foldl l fun _ _ =>
        (linksChanged_updateChild _ _ _ _).trans (linksChanged_updateParent _ _ _ _)).mapTx
    exact ((hlinks _).trans
      ((modified_of_modifyAll h₁).keptFrom fun _ _ he => (updateAncestorState_index he).1)).trans
      ((modified_of_modify h₂).keptFrom fun _ _ he => (updateDescendantState_index he).1)
  · obtain rfl := some.inj h
    exact KeptFrom.refl _

lemma keptFrom_updateTransactionsFromBlock {vHashesToUpdate : List Uint256}
    (h : pool.updateTransactionsFromBlock vHashesToUpdate = some pool') : KeptFrom pool pool' := by
  have hloop : ∀ (s : SetEntries) (l : List Uint256) (st st' : CTxMemPool sha256 × CacheMap),
      l.foldlM (updateTransactionFromBlock s) st = some st' → KeptFrom st.1 st'.1 := by
    intro s l
    induction l with
    | nil =>
      intro st st' hl
      obtain rfl := some.inj hl
      exact KeptFrom.refl _
    | cons hash l ih =>
      intro st st' hl
      rw [foldlM_cons] at hl
      obtain ⟨mid, hmid, hl⟩ := bind_eq_some_iff.mp hl
      exact (keptFrom_updateTransactionFromBlock hmid).trans (ih mid st' hl)
  unfold updateTransactionsFromBlock at h
  obtain ⟨st, hst, h⟩ := bind_eq_some_iff.mp h
  obtain rfl := some.inj h
  exact hloop _ _ _ _ hst

end Kept

end CTxMemPool

end MutableBitcoin
