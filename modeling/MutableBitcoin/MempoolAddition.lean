import MutableBitcoin.MempoolRemoval

/-!
# Addition to the pool

`addUnchecked` puts an entry below its parents in the pool. Its share is added to the descendant states of
its ancestors, and their shares to its own ancestor state.
-/

namespace MutableBitcoin
open Lib Finset Prod

namespace CTxMemPoolEntry

variable {sha256 : Bytes → Uint256}

/-- A new entry counts itself. -/
structure Fresh (e : CTxMemPoolEntry sha256) : Prop where
  feeDelta : e.feeDelta = 0
  descendants : e.descendantState = e.descendantShare
  ancestors : e.ancestorState = e.ancestorShare

lemma fresh_make (tx : CTransaction sha256) (nFee nTime : ℤ) (sigOpsCost nUsageSize : ℕ) :
    Fresh (make tx nFee nTime sigOpsCost nUsageSize) := by
  refine ⟨rfl, ?_, ?_⟩
  · simp [make, descendantState, descendantShare, getModifiedFee, getTxSize]
  · simp [make, ancestorState, ancestorShare, getModifiedFee, getTxSize]

/-- The entry with the fee delta that `PrioritiseTransaction` has left. -/
def withDelta (e : CTxMemPoolEntry sha256) (delta : Option ℤ) : CTxMemPoolEntry sha256 :=
  e.updateFeeDelta (delta.getD 0)

lemma Fresh.descendantState_withDelta {e : CTxMemPoolEntry sha256} (h : Fresh e) (delta : Option ℤ) :
    (e.withDelta delta).descendantState = (e.withDelta delta).descendantShare := by
  have hstate := h.descendants
  simp only [descendantState, descendantShare, Prod.mk.injEq, getModifiedFee] at hstate
  simp only [withDelta, updateFeeDelta, descendantState, descendantShare, getModifiedFee, getTxSize,
    hstate.2.1, hstate.2.2, hstate.1, h.feeDelta]
  simp

lemma Fresh.ancestorState_withDelta {e : CTxMemPoolEntry sha256} (h : Fresh e) (delta : Option ℤ) :
    (e.withDelta delta).ancestorState = (e.withDelta delta).ancestorShare := by
  have hstate := h.ancestors
  simp only [ancestorState, ancestorShare, Prod.mk.injEq, getModifiedFee] at hstate
  simp only [withDelta, updateFeeDelta, ancestorState, ancestorShare, getModifiedFee, getTxSize,
    hstate.2.1, hstate.2.2.1, hstate.2.2.2, hstate.1, h.feeDelta]
  simp

lemma Fresh.withDelta_zero {e : CTxMemPoolEntry sha256} (h : Fresh e) : e.updateFeeDelta 0 = e := by
  simp only [updateFeeDelta, h.feeDelta, sub_zero, add_zero]
  rw [← h.feeDelta]

end CTxMemPoolEntry

namespace CTxMemPool

variable {sha256 : Bytes → Uint256}

section Added

/-- What `addUnchecked` has changed. -/
structure Added (pool pool' : CTxMemPool sha256) (e : CTxMemPoolEntry sha256) (setAncestors : SetEntries) :
    Prop where
  entries : ∀ it, it ≠ e.tx.hash → pool'.coreAt it = (pool.coreAt it).map
    (·.shift (if it ∈ setAncestors then e.descendantShare else 0) 0)
  entry : pool'.coreAt e.tx.hash = some (e.core.shift 0 (∑ y ∈ setAncestors, pool.ancestorShareAt y))
  links : WithLeaf e.tx.hash (pool.parentsOf e.tx) pool.getMemPoolParents pool.getMemPoolChildren
    pool'.getMemPoolParents pool'.getMemPoolChildren
  domain : ∀ it, it ∈ pool'.mapLinks ↔ it = e.tx.hash ∨ it ∈ pool.mapLinks
  nextKept : ∀ o tx, pool.mapNextTx.lookup o = some tx → pool'.mapNextTx.lookup o = some tx
  nextNew : ∀ o, pool.mapNextTx.lookup o = none →
    pool'.mapNextTx.lookup o = if ∃ txin ∈ e.tx.vin, txin.prevout = o then some e.tx else none
  mapDeltas : pool'.mapDeltas = pool.mapDeltas
  totalTxSize : pool'.totalTxSize = pool.totalTxSize + e.getTxSize
  balance : pool'.cachedInnerUsage - pool'.linkUsage = pool.cachedInnerUsage - pool.linkUsage + e.nUsageSize

variable {pool : CTxMemPool sha256} {slack : Uint256 → ℤ × ℤ × ℤ}

/-- What inserting the entry has changed, before its links are made. -/
structure Inserted (pool pool' : CTxMemPool sha256) (e : CTxMemPoolEntry sha256) : Prop where
  entries : ∀ it, it ≠ e.tx.hash → pool'.coreAt it = pool.coreAt it
  entry : pool'.mapTx.lookup e.tx.hash = some e
  linksAt : ∀ it, pool'.linksAt it = pool.linksAt it
  domain : ∀ it, it ∈ pool'.mapLinks ↔ it = e.tx.hash ∨ it ∈ pool.mapLinks
  mapNextTx : pool'.mapNextTx = pool.mapNextTx
  mapDeltas : pool'.mapDeltas = pool.mapDeltas
  totalTxSize : pool'.totalTxSize = pool.totalTxSize
  balance : pool'.cachedInnerUsage - pool'.linkUsage = pool.cachedInnerUsage - pool.linkUsage

lemma inserted_insertEntry (hlinked : Linked pool) {e : CTxMemPoolEntry sha256} (hnew : e.tx.hash ∉ pool.mapTx) :
    Inserted pool (pool.insertEntry e) e := by
  have hlinks : e.tx.hash ∉ pool.mapLinks := fun h => hnew ((hlinked.domain _).mp h)
  have hat : pool.linksAt e.tx.hash = ⟨∅, ∅⟩ := by
    rw [linksAt, Finmap.lookup_eq_none.mpr hlinks]
    rfl
  have heq : pool.insertEntry e = { pool with
      mapTx := pool.mapTx.insert e.tx.hash e, mapLinks := pool.mapLinks.insert e.tx.hash ⟨∅, ∅⟩ } := by
    unfold insertEntry
    rw [if_neg hnew, if_neg hlinks]
  rw [heq]
  refine ⟨?_, Finmap.lookup_insert _, ?_, fun _ => Finmap.mem_insert, rfl, rfl, rfl, ?_⟩
  · intro it hit
    rw [coreAt]
    dsimp only
    rw [Finmap.lookup_insert_of_ne _ hit]
    rfl
  · intro it
    have h := linksAt_insert pool pool.mapLinks pool.cachedInnerUsage e.tx.hash it ⟨∅, ∅⟩
    refine h.trans ?_
    split_ifs with hit
    · rw [hit, hat]
    · rfl
  · have h := linkUsage_insert pool e.tx.hash ⟨∅, ∅⟩ pool.cachedInnerUsage
    rw [hat, sub_add_cancel] at h
    exact congrArg (pool.cachedInnerUsage - ·) h

lemma exists_applyDelta (hlinked : Linked pool) {e : CTxMemPoolEntry sha256} (hfresh : e.Fresh)
    (hnew : e.tx.hash ∉ pool.mapTx) :
    ∃ pool', (pool.insertEntry e).applyDelta e.tx.hash = some pool' ∧
      Inserted pool pool' (e.withDelta (pool.mapDeltas.lookup e.tx.hash)) := by
  have hinserted := inserted_insertEntry hlinked hnew
  have hdeltas : (pool.insertEntry e).mapDeltas = pool.mapDeltas := rfl
  unfold applyDelta
  rw [hdeltas]
  cases hdelta : pool.mapDeltas.lookup e.tx.hash with
  | none =>
    refine ⟨pool.insertEntry e, rfl, ?_⟩
    have hsame : e.withDelta none = e := hfresh.withDelta_zero
    rw [hsame]
    exact hinserted
  | some delta =>
    dsimp only
    split_ifs with hzero
    · obtain ⟨pool', hpool'⟩ := exists_modify (pool.insertEntry e)
        (f := fun e => some (e.updateFeeDelta delta)) (fun _ _ => rfl)
      have hmod := modified_of_modify hpool'
      have hlinksAt : ∀ it, pool'.linksAt it = (pool.insertEntry e).linksAt it := by
        rw [hmod.rest]
        exact fun _ => rfl
      refine ⟨pool', hpool', ?_, ?_, ?_, ?_, ?_, ?_, ?_, ?_⟩
      · intro it hit
        rw [coreAt, hmod.outside it (fun h => hit (mem_singleton.mp h))]
        exact hinserted.entries it hit
      · change pool'.mapTx.lookup e.tx.hash = _
        rw [hmod.inside _ (mem_singleton_self _), hinserted.entry]
        rfl
      · exact fun it => (hlinksAt it).trans (hinserted.linksAt it)
      · rw [hmod.rest]
        exact hinserted.domain
      · rw [hmod.rest]
        exact hinserted.mapNextTx
      · rw [hmod.rest]
        exact hinserted.mapDeltas
      · rw [hmod.rest]
        exact hinserted.totalTxSize
      · rw [hmod.rest]
        exact hinserted.balance
    · rw [not_not] at hzero
      have hsame : e.withDelta (some delta) = e := by
        rw [hzero]
        exact hfresh.withDelta_zero
      rw [hsame]
      exact ⟨pool.insertEntry e, rfl, hinserted⟩

lemma linksAt_foldl_updateParent_true (entry : Uint256) (l : List Uint256) (it : Uint256) :
    (l.foldl (fun pool phash => pool.updateParent entry phash true) pool).linksAt it = if it = entry then
      ⟨(pool.linksAt it).parents ∪ l.toFinset, (pool.linksAt it).children⟩ else pool.linksAt it := by
  induction l generalizing pool with
  | nil => simp
  | cons phash l ih =>
    rw [List.foldl_cons, ih, linksAt_updateParent]
    by_cases hit : it = entry
    · simp [hit]
    · simp [hit]

lemma mem_mapLinks_foldl_updateParent {entry : Uint256} (hentry : entry ∈ pool.mapLinks) (l : List Uint256)
    (it : Uint256) :
    it ∈ (l.foldl (fun pool phash => pool.updateParent entry phash true) pool).mapLinks ↔ it ∈ pool.mapLinks := by
  induction l generalizing pool with
  | nil => exact Iff.rfl
  | cons phash l ih =>
    rw [List.foldl_cons, ih ((mem_mapLinks_updateParent _ _ _ _ _).mpr (Or.inl rfl)), mem_mapLinks_updateParent]
    refine ⟨?_, Or.inr⟩
    rintro (rfl | hit)
    · exact hentry
    · exact hit

lemma lookup_foldl_spend (tx : CTransaction sha256) (vin : List CTxIn)
    (m : Finmap (fun _ : COutPoint => CTransaction sha256)) (o : COutPoint) :
    (vin.foldl (fun m txin => if txin.prevout ∈ m then m else m.insert txin.prevout tx) m).lookup o =
      (m.lookup o).or (if ∃ txin ∈ vin, txin.prevout = o then some tx else none) := by
  induction vin generalizing m with
  | nil => simp
  | cons txin vin ih =>
    rw [List.foldl_cons, ih]
    by_cases hmem : txin.prevout ∈ m
    · rw [if_pos hmem]
      by_cases ho : txin.prevout = o
      · obtain ⟨tx', htx'⟩ := Option.isSome_iff_exists.mp (Finmap.lookup_isSome.mpr (ho ▸ hmem))
        rw [htx']
        rfl
      · simp [ho]
    · rw [if_neg hmem, lookup_insert_apply]
      by_cases ho : txin.prevout = o
      · have hnone : m.lookup o = none := Finmap.lookup_eq_none.mpr (ho ▸ hmem)
        rw [hnone]
        simp [ho]
      · simp [ho, Ne.symm ho]

lemma modifyAll_singleton (it : Uint256) (f : CTxMemPoolEntry sha256 → Option (CTxMemPoolEntry sha256)) :
    pool.modifyAll {it} f = pool.modify it f := by
  unfold modifyAll SetEntries.inOrder
  rw [sort_singleton, List.foldlM_cons]
  cases pool.modify it f <;> rfl

lemma sum_inOrder {M : Type} [AddCommMonoid M] (s : SetEntries) (g : Uint256 → M) :
    (s.inOrder.map g).sum = ∑ y ∈ s, g y := by
  rw [← List.sum_toFinset g s.nodup_inOrder, toFinset_inOrder]

lemma sum_ancestorShareAt {s : SetEntries} (hs : s ⊆ pool.mapTx.keys) :
    ((s.inOrder.map (pool.valueAt (·.getTxSize))).sum, (s.inOrder.map (pool.valueAt (·.getModifiedFee))).sum,
      (s.card : ℤ), (s.inOrder.map (pool.valueAt (·.sigOpCost))).sum) = ∑ y ∈ s, pool.ancestorShareAt y := by
  have hshare : ∀ y ∈ s, pool.ancestorShareAt y = (pool.valueAt (·.getTxSize) y, pool.valueAt (·.getModifiedFee) y,
      1, pool.valueAt (·.sigOpCost) y) := by
    intro y hy
    obtain ⟨e, he⟩ := exists_coreAt (Finmap.mem_keys.mp (hs hy))
    rw [ancestorShareAt_eq he, valueAt_eq_of_core (fun _ => rfl) he, valueAt_eq_of_core (fun _ => rfl) he,
      valueAt_eq_of_core (fun _ => rfl) he]
    rfl
  rw [sum_congr rfl hshare, sum_inOrder, sum_inOrder, sum_inOrder]
  ext <;> simp [fst_sum, snd_sum]

lemma exists_appendHash (pool : CTxMemPool sha256) (it witnessHash : Uint256) :
    ∃ pool', pool.appendHash it witnessHash = some pool' ∧ (∀ x, pool'.coreAt x = pool.coreAt x) ∧
      pool'.mapLinks = pool.mapLinks ∧ pool'.mapNextTx = pool.mapNextTx ∧ pool'.mapDeltas = pool.mapDeltas ∧
      pool'.totalTxSize = pool.totalTxSize ∧ pool'.cachedInnerUsage = pool.cachedInnerUsage := by
  unfold appendHash
  obtain ⟨pool', hpool'⟩ := exists_modify { pool with vTxHashes := pool.vTxHashes ++ [(witnessHash, it)] }
    (f := fun e => some { e with vTxHashesIdx := pool.vTxHashes.length }) (fun _ _ => rfl)
  have hmod := modified_of_modify hpool'
  refine ⟨pool', hpool', ?_, by rw [hmod.rest], by rw [hmod.rest], by rw [hmod.rest], by rw [hmod.rest],
    by rw [hmod.rest]⟩
  intro x
  unfold coreAt
  by_cases hx : x ∈ ({it} : SetEntries)
  · rw [hmod.inside x hx]
    dsimp only
    cases pool.mapTx.lookup x <;> rfl
  · rw [hmod.outside x hx]

lemma linkParents_spec (pool₁ : CTxMemPool sha256) {tx : CTransaction sha256} (hlinked : Linked pool)
    (hentries : ∀ it, it ≠ tx.hash → pool₁.coreAt it = pool.coreAt it)
    (hlinksAt : ∀ it, pool₁.linksAt it = pool.linksAt it) (hdomain : tx.hash ∈ pool₁.mapLinks)
    (hnew : tx.hash ∉ pool.mapTx) (hself : ∀ txin ∈ tx.vin, txin.prevout.hash ≠ tx.hash) :
    (∀ it, (pool₁.linkParents tx.hash (tx.vin.map (·.prevout.hash)).toFinset).linksAt it =
      if it = tx.hash then ⟨pool.parentsOf tx, ∅⟩ else pool.linksAt it) ∧
    (∀ it, it ∈ (pool₁.linkParents tx.hash (tx.vin.map (·.prevout.hash)).toFinset).mapLinks ↔
      it ∈ pool₁.mapLinks) := by
  have hlist : ((SetEntries.inOrder (tx.vin.map (·.prevout.hash)).toFinset).filter (· ∈ pool₁.mapTx)).toFinset =
      pool.parentsOf tx := by
    ext p
    rw [List.mem_toFinset, List.mem_filter, SetEntries.mem_inOrder, List.mem_toFinset, List.mem_map,
      mem_parentsOf, decide_eq_true_eq, and_congr_right_iff]
    rintro ⟨txin, htxin, rfl⟩
    rw [mem_mapTx_iff_coreAt, mem_mapTx_iff_coreAt, hentries _ (hself txin htxin)]
  have hempty : pool.linksAt tx.hash = ⟨∅, ∅⟩ := by
    rw [linksAt, Finmap.lookup_eq_none.mpr (fun h => hnew ((hlinked.domain _).mp h))]
    rfl
  refine ⟨?_, fun it => mem_mapLinks_foldl_updateParent hdomain _ _⟩
  intro it
  unfold linkParents
  rw [linksAt_foldl_updateParent_true, hlinksAt, hlist]
  split_ifs with hit
  · rw [hit, hempty, empty_union]
  · rfl

lemma CountsDescendants.room_add (hD : CountsDescendants pool slack)
    (hslack : ∀ it, 0 ≤ (slack it).1 ∧ 0 ≤ (slack it).2.2) (hlinked : Linked pool) {it : Uint256}
    {e₀ : CTxMemPoolEntry sha256} (he₀ : pool.coreAt it = some e₀) (e : CTxMemPoolEntry sha256) :
    0 < (e₀.descendantState + e.descendantShare).1 ∧ 0 < (e₀.descendantState + e.descendantShare).2.2 := by
  have hpos := hD.room hslack hlinked he₀ (empty_subset _)
  rw [sum_empty, sub_zero] at hpos
  have hsize := e.getTxSize_pos
  simp only [fst_add, snd_add, CTxMemPoolEntry.descendantShare]
  exact ⟨by linarith [hpos.1], by linarith [hpos.2]⟩

lemma ancestorShare_add_pos (pool : CTxMemPool sha256) (e : CTxMemPoolEntry sha256) (s : SetEntries) :
    0 < (e.ancestorShare + ∑ y ∈ s, pool.ancestorShareAt y).1 ∧
      0 < (e.ancestorShare + ∑ y ∈ s, pool.ancestorShareAt y).2.2.1 ∧
      0 ≤ (e.ancestorShare + ∑ y ∈ s, pool.ancestorShareAt y).2.2.2 := by
  have hsize := e.getTxSize_pos
  have hnonneg := fun y => ancestorShareAt_nonneg pool y
  have hsum₁ := sum_nonneg (s := s) (fun y _ => (hnonneg y).1)
  have hsum₂ := sum_nonneg (s := s) (fun y _ => (hnonneg y).2.1)
  have hsum₃ := sum_nonneg (s := s) (fun y _ => (hnonneg y).2.2)
  simp only [fst_add, snd_add, fst_sum, snd_sum, CTxMemPoolEntry.ancestorShare]
  exact ⟨by linarith, by linarith, by linarith⟩

lemma exists_updateCounters {pool₃ : CTxMemPool sha256} {e : CTxMemPoolEntry sha256} {setAncestors : SetEntries}
    (hlinked : Linked pool) (hD : CountsDescendants pool slack)
    (hslack : ∀ it, 0 ≤ (slack it).1 ∧ 0 ≤ (slack it).2.2) (hstateA : e.ancestorState = e.ancestorShare)
    (hnew : e.tx.hash ∉ pool.mapTx) (hsub : setAncestors ⊆ pool.mapTx.keys)
    (hentries : ∀ it, it ≠ e.tx.hash → pool₃.coreAt it = pool.coreAt it)
    (hentry : pool₃.coreAt e.tx.hash = some e.core)
    (hlinksAt : ∀ it, pool₃.linksAt it = if it = e.tx.hash then ⟨pool.parentsOf e.tx, ∅⟩ else pool.linksAt it)
    (hdomain : ∀ it, it ∈ pool₃.mapLinks ↔ it = e.tx.hash ∨ it ∈ pool.mapLinks) :
    ∃ pool₄ pool₅, pool₃.updateAncestorsOf true e.tx.hash setAncestors = some pool₄ ∧
      pool₄.updateEntryForAncestors e.tx.hash setAncestors = some pool₅ ∧
      Shifted pool₃ pool₅ (fun it => if it ∈ setAncestors then e.descendantShare else 0)
        (fun it => if it = e.tx.hash then ∑ y ∈ setAncestors, pool.ancestorShareAt y else 0) ∧
      (∀ it, pool₅.linksAt it = if it = e.tx.hash then ⟨pool.parentsOf e.tx, ∅⟩
        else ⟨(pool.linksAt it).parents, if it ∈ pool.parentsOf e.tx then insert e.tx.hash (pool.linksAt it).children
          else (pool.linksAt it).children⟩) ∧
      (∀ it, it ∈ pool₅.mapLinks ↔ it = e.tx.hash ∨ it ∈ pool.mapLinks) := by
  have hne : ∀ it ∈ pool.mapTx, it ≠ e.tx.hash := fun it hit heq => hnew (heq ▸ hit)
  have hparents : pool₃.getMemPoolParents e.tx.hash = pool.parentsOf e.tx := by
    rw [getMemPoolParents, hlinksAt, if_pos rfl]
  have hshare : ((if true then 1 else -1 : ℤ) * pool₃.valueAt (·.getTxSize) e.tx.hash,
      (if true then 1 else -1 : ℤ) * pool₃.valueAt (·.getModifiedFee) e.tx.hash, (if true then 1 else -1 : ℤ)) =
      e.descendantShare := by
    rw [valueAt_eq_of_core (fun _ => rfl) hentry, valueAt_eq_of_core (fun _ => rfl) hentry, if_pos rfl, one_mul,
      one_mul]
    rfl
  -- The parents get the new child.
  have hlink : Shifted pool₃ ((pool.parentsOf e.tx).inOrder.foldl
      (fun pool piter => pool.updateChild piter e.tx.hash true) pool₃) 0 0 :=
    shifted_foldl _ _ (fun _ _ => shifted_updateChild _ _ _ _)
  have hlinkAt := linksAt_foldl_updateChild_true pool₃ e.tx.hash (pool.parentsOf e.tx).inOrder
  have hlinkDomain := mem_mapLinks_foldl pool₃
    (fun pool entry it => mem_mapLinks_updateChild pool entry e.tx.hash true it)
    (pool.parentsOf e.tx).inOrder
  generalize hlinkedPool : (pool.parentsOf e.tx).inOrder.foldl
      (fun pool piter => pool.updateChild piter e.tx.hash true) pool₃ = linked at hlink hlinkAt hlinkDomain
  -- The ancestors count the new entry.
  obtain ⟨pool₄, h₄, hlinks₄, hshift₄⟩ := exists_modifyAll_descendantState linked setAncestors
    e.descendantShare (by
      intro it hit e' he'
      obtain ⟨e₀, he₀, rfl⟩ := hlink.exists_coreAt he'
      rw [hentries it (hne it (Finmap.mem_keys.mp (hsub hit)))] at he₀
      simp only [Pi.zero_apply, CTxMemPoolEntry.shift_zero]
      exact hD.room_add hslack hlinked he₀ e)
  have hshift₃₄ := hlink.trans hshift₄
  have hshares : ∀ y ∈ setAncestors, pool₄.ancestorShareAt y = pool.ancestorShareAt y := by
    intro y hy
    rw [hshift₃₄.ancestorShareAt, ancestorShareAt, hentries y (hne y (Finmap.mem_keys.mp (hsub hy))), ancestorShareAt]
  have hsub₄ : setAncestors ⊆ pool₄.mapTx.keys := by
    intro y hy
    have hmem := Finmap.mem_keys.mp (hsub hy)
    rw [Finmap.mem_keys, hshift₃₄.mem_iff, mem_mapTx_iff_coreAt, hentries y (hne y hmem), ← mem_mapTx_iff_coreAt]
    exact hmem
  have hentry₄ := hshift₃₄.coreAt hentry
  -- The new entry counts its ancestors.
  obtain ⟨pool₅, h₅, hlinks₅, hshift₅⟩ := exists_modifyAll_ancestorState pool₄ {e.tx.hash}
    (δ := ∑ y ∈ setAncestors, pool.ancestorShareAt y) (by
      intro it hit e' he'
      rw [mem_singleton.mp hit, hentry₄, Option.some.injEq] at he'
      rw [← he']
      have hstate : (e.core.shift ((0 + fun it => if it ∈ setAncestors then e.descendantShare else 0) e.tx.hash)
          ((0 + 0 : Uint256 → ℤ × ℤ × ℤ × ℤ) e.tx.hash)).ancestorState = e.ancestorShare := by
        rw [CTxMemPoolEntry.ancestorState_shift, ← hstateA]
        simp only [Pi.zero_apply, add_zero]
        rfl
      rw [hstate]
      exact ancestorShare_add_pos pool e setAncestors)
  refine ⟨pool₄, pool₅, ?_, ?_, ?_, ?_, ?_⟩
  · unfold updateAncestorsOf
    rw [hparents, hlinkedPool]
    rw [← hshare] at h₄
    exact h₄
  · rw [modifyAll_singleton] at h₅
    unfold updateEntryForAncestors
    rw [← sum_congr rfl hshares, ← sum_ancestorShareAt hsub₄] at h₅
    exact h₅
  · apply (hshift₃₄.trans hshift₅).congr
    · intro it _
      simp
    · intro it _
      simp [mem_singleton]
  · intro it
    rw [linksAt_of_mapLinks (hlinks₅.trans hlinks₄), hlinkAt, hlinksAt]
    simp only [SetEntries.mem_inOrder]
    by_cases hit : it = e.tx.hash
    · rw [if_pos hit, if_neg, if_pos hit]
      rw [hit]
      exact fun h => hnew (Finmap.mem_keys.mp (parentsOf_sub e.tx h))
    · rw [if_neg hit, if_neg hit]
      split_ifs <;> rfl
  · intro it
    rw [hlinks₅, hlinks₄, hlinkDomain, hdomain, SetEntries.mem_inOrder]
    refine ⟨?_, Or.inr⟩
    rintro (hit | hit)
    · exact Or.inr ((hlinked.domain it).mpr (Finmap.mem_keys.mp (parentsOf_sub e.tx hit)))
    · exact hit

/-- Adding an entry does not fail, if the counters cover what they count and the entry does not spend an
output of its own id. -/
theorem exists_addUnchecked (hlinked : Linked pool) (hD : CountsDescendants pool slack)
    (hslack : ∀ it, 0 ≤ (slack it).1 ∧ 0 ≤ (slack it).2.2) {entry : CTxMemPoolEntry sha256} (hfresh : entry.Fresh)
    (hnew : entry.tx.hash ∉ pool.mapTx) (hself : ∀ txin ∈ entry.tx.vin, txin.prevout.hash ≠ entry.tx.hash)
    {setAncestors : SetEntries} (hsub : setAncestors ⊆ pool.mapTx.keys) :
    ∃ pool', pool.addUnchecked entry setAncestors = some pool' ∧
      Added pool pool' (entry.withDelta (pool.mapDeltas.lookup entry.tx.hash)) setAncestors := by
  obtain ⟨pool₁, h₁, hins⟩ := exists_applyDelta hlinked hfresh hnew
  have hstateA := hfresh.ancestorState_withDelta (pool.mapDeltas.lookup entry.tx.hash)
  have htx : (entry.withDelta (pool.mapDeltas.lookup entry.tx.hash)).tx = entry.tx := rfl
  have hsize : (entry.withDelta (pool.mapDeltas.lookup entry.tx.hash)).getTxSize = entry.getTxSize := rfl
  have husage : (entry.withDelta (pool.mapDeltas.lookup entry.tx.hash)).nUsageSize = entry.nUsageSize := rfl
  generalize entry.withDelta (pool.mapDeltas.lookup entry.tx.hash) = e at *
  rw [← htx] at hnew hself h₁
  -- The memory of the entry and the outputs it spends.
  generalize hspent : ({ pool₁ with cachedInnerUsage := pool₁.cachedInnerUsage + entry.nUsageSize } :
    CTxMemPool sha256).spendInputs e.tx = pool₂
  have hcore₂ : ∀ it, pool₂.coreAt it = pool₁.coreAt it := by
    rw [← hspent]
    exact fun _ => rfl
  have hlinks₂ : pool₂.mapLinks = pool₁.mapLinks := by
    rw [← hspent]
    rfl
  have hentry₂ : pool₂.coreAt e.tx.hash = some e.core := by
    rw [hcore₂, coreAt, hins.entry]
    rfl
  obtain ⟨hlinks₃, hdomain₃⟩ := linkParents_spec pool₂ hlinked
    (fun it hit => (hcore₂ it).trans (hins.entries it hit))
    (fun it => (linksAt_of_mapLinks hlinks₂ it).trans (hins.linksAt it))
    (by rw [hlinks₂, hins.domain]; exact Or.inl rfl) hnew hself
  have hshift₃ : Shifted pool₂ (pool₂.linkParents e.tx.hash (e.tx.vin.map (·.prevout.hash)).toFinset) 0 0 :=
    shifted_foldl _ _ (fun _ _ => shifted_updateParent _ _ _ _)
  generalize hpool₃ : pool₂.linkParents e.tx.hash (e.tx.vin.map (·.prevout.hash)).toFinset = pool₃
    at hlinks₃ hdomain₃ hshift₃
  have hcore₃ : ∀ it, pool₃.coreAt it = pool₁.coreAt it := by
    intro it
    rw [hshift₃.entries, hcore₂]
    exact CTxMemPoolEntry.map_shift_zero _
  obtain ⟨pool₄, pool₅, h₄, h₅, hshift₅, hlinks₅, hdomain₅⟩ := exists_updateCounters hlinked hD hslack hstateA hnew hsub
    (fun it hit => (hcore₃ it).trans (hins.entries it hit)) (by rw [hcore₃, ← hcore₂, hentry₂]) hlinks₃
    (fun it => by rw [hdomain₃, hlinks₂, hins.domain])
  obtain ⟨pool₆, h₆, hcore₆, hlinks₆, hnext₆, hdeltas₆, htotal₆, husage₆⟩ := exists_appendHash
    { pool₅ with totalTxSize := pool₅.totalTxSize + entry.getTxSize } e.tx.hash e.tx.witnessHash
  have hnotSet : e.tx.hash ∉ setAncestors := fun h => hnew (Finmap.mem_keys.mp (hsub h))
  have hnext : ∀ o, pool₆.mapNextTx.lookup o =
      (pool.mapNextTx.lookup o).or (if ∃ txin ∈ e.tx.vin, txin.prevout = o then some e.tx else none) := by
    intro o
    rw [hnext₆]
    dsimp only
    rw [hshift₅.mapNextTx, hshift₃.mapNextTx, ← hspent, ← hins.mapNextTx]
    exact lookup_foldl_spend e.tx e.tx.vin pool₁.mapNextTx o
  have hlinksAt₆ : ∀ it, pool₆.linksAt it = pool₅.linksAt it := linksAt_of_mapLinks hlinks₆
  refine ⟨pool₆, ?_, ?_, ?_, ⟨?_, ?_, ?_, ?_⟩, ?_, ?_, ?_, ?_, ?_, ?_⟩
  · unfold addUnchecked
    dsimp only [bind, Option.bind]
    rw [← htx, h₁]
    dsimp only
    rw [hins.entry]
    dsimp only [Option.map_some, Option.getD_some]
    rw [hspent, hpool₃, h₄]
    dsimp only
    rw [h₅]
    exact h₆
  · intro it hit
    have hcore : ({ pool₅ with totalTxSize := pool₅.totalTxSize + entry.getTxSize } : CTxMemPool sha256).coreAt it =
        pool₅.coreAt it := rfl
    rw [hcore₆, hcore, hshift₅.entries, hcore₃, hins.entries it hit, if_neg hit]
  · have hcore : ({ pool₅ with totalTxSize := pool₅.totalTxSize + entry.getTxSize } : CTxMemPool sha256).coreAt
        e.tx.hash = pool₅.coreAt e.tx.hash := rfl
    rw [hcore₆, hcore, hshift₅.coreAt (e := e.core) (by rw [hcore₃, ← hcore₂, hentry₂]), if_neg hnotSet, if_pos rfl]
  · rw [getMemPoolParents, hlinksAt₆, hlinks₅, if_pos rfl]
  · rw [getMemPoolChildren, hlinksAt₆, hlinks₅, if_pos rfl]
  · intro it hit
    rw [getMemPoolParents, hlinksAt₆, hlinks₅, if_neg hit]
    rfl
  · intro it hit
    rw [getMemPoolChildren, hlinksAt₆, hlinks₅, if_neg hit]
    rfl
  · intro it
    rw [hlinks₆, hdomain₅]
  · intro o tx ho
    rw [hnext, ho]
    rfl
  · intro o ho
    rw [hnext, ho]
    rfl
  · rw [hdeltas₆]
    exact (hshift₅.mapDeltas.trans hshift₃.mapDeltas).trans (by rw [← hspent]; exact hins.mapDeltas)
  · rw [htotal₆, hsize]
    dsimp only
    rw [hshift₅.totalTxSize, hshift₃.totalTxSize, ← hspent, ← hins.totalTxSize]
    rfl
  · have husage₅ : pool₆.linkUsage = pool₅.linkUsage := by
      unfold linkUsage
      rw [hlinks₆]
      exact sum_congr rfl (fun it _ => by rw [hlinksAt₆])
    have hbalance := hshift₅.balance.trans hshift₃.balance
    have hbalance₁ := hins.balance
    have husage₂ : pool₂.cachedInnerUsage = pool₁.cachedInnerUsage + entry.nUsageSize := by
      rw [← hspent]
      rfl
    have hlinkUsage₂ : pool₂.linkUsage = pool₁.linkUsage := by
      rw [← hspent]
      rfl
    rw [husage₆, husage₅, husage]
    dsimp only
    linarith

end Added

end CTxMemPool

end MutableBitcoin
