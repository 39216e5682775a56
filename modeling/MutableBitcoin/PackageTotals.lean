import MutableBitcoin.BlockAssembler
import MutableBitcoin.MempoolAccounting

/-!
# The totals of the packages

The modified set keeps the totals of the entries that have ancestors in the block.
-/

namespace MutableBitcoin
open Lib CTxMemPool List Finmap Prod

namespace BlockAssembler

variable {sha256 : Bytes → Uint256} {pool : CTxMemPool sha256}

def totals (e : CTxMemPoolModifiedEntry) : ℤ × ℤ × ℤ :=
  (e.nSizeWithAncestors, e.nModFeesWithAncestors, e.nSigOpCostWithAncestors)

def packageShare (pool : CTxMemPool sha256) (x : Uint256) : ℤ × ℤ × ℤ :=
  (pool.valueAt (·.getTxSize) x, pool.valueAt (·.getModifiedFee) x, pool.valueAt (·.sigOpCost) x)

/-- The part of the share that `updateForParentInclusion` leaves. -/
def deltaShare (pool : CTxMemPool sha256) (x : Uint256) : ℤ × ℤ × ℤ := (0, pool.valueAt (·.feeDelta) x, 0)

section Shares

lemma totals_modifiedEntry (hacc : Accounting pool) {y : Uint256} (hy : y ∈ pool.mapTx) :
    totals (modifiedEntry pool y) = ∑ x ∈ pool.ancestors y, packageShare pool x := by
  obtain ⟨e, he⟩ := exists_coreAt hy
  have hstate := hacc.exact.ancestors y e he
  rw [Pi.zero_apply, add_zero] at hstate
  have hshare : ∀ x ∈ pool.ancestors y, packageShare pool x =
      ((pool.ancestorShareAt x).1, (pool.ancestorShareAt x).2.1, (pool.ancestorShareAt x).2.2.2) := by
    intro x hx
    obtain ⟨ex, hex⟩ := exists_coreAt (mem_keys.mp (mem_above.mp hx).1)
    rw [ancestorShareAt_eq hex, packageShare, valueAt_eq_of_core (fun _ => rfl) hex,
      valueAt_eq_of_core (fun _ => rfl) hex, valueAt_eq_of_core (fun _ => rfl) hex]
    rfl
  have hsize := congrArg (fun s => s.1) hstate
  have hfees := congrArg (fun s => s.2.1) hstate
  have hsigops := congrArg (fun s => s.2.2.2) hstate
  rw [Finset.sum_congr rfl hshare, totals, modifiedEntry, valueAt_eq_of_core (fun _ => rfl) he,
    valueAt_eq_of_core (fun _ => rfl) he, valueAt_eq_of_core (fun _ => rfl) he]
  simp only [fst_sum, snd_sum, CTxMemPoolEntry.ancestorState] at hsize hfees hsigops
  ext
  · simpa only [fst_sum, snd_sum] using hsize
  · simpa only [fst_sum, snd_sum] using hfees
  · simpa only [fst_sum, snd_sum] using hsigops

lemma valueAt_getModifiedFee (x : Uint256) :
    pool.valueAt (·.getModifiedFee) x = pool.valueAt (·.nFee) x + pool.valueAt (·.feeDelta) x := by
  unfold valueAt
  cases pool.mapTx.lookup x with
  | none => rfl
  | some e => rfl

lemma totals_updateForParentInclusion {x : Uint256} {e : CTxMemPoolModifiedEntry} :
    totals (updateForParentInclusion pool x e) = totals e - packageShare pool x + deltaShare pool x := by
  unfold totals updateForParentInclusion packageShare deltaShare
  ext
  · simp
  · simp only [fst_add, snd_add, fst_sub, snd_sub, valueAt_getModifiedFee]
    ring
  · simp

end Shares

section Updates

/-- What `UpdatePackagesForAdded` stores for a descendant. -/
def updatedEntry (pool : CTxMemPool sha256) (desc it : Uint256) : Option CTxMemPoolModifiedEntry → CTxMemPoolModifiedEntry
  | none =>
    let modEntry := modifiedEntry pool desc
    { nSizeWithAncestors := modEntry.nSizeWithAncestors - pool.valueAt (·.getTxSize) it
      nModFeesWithAncestors := modEntry.nModFeesWithAncestors - pool.valueAt (·.getModifiedFee) it
      nSigOpCostWithAncestors := modEntry.nSigOpCostWithAncestors - pool.valueAt (·.sigOpCost) it }
  | some mit => updateForParentInclusion pool it mit

lemma updateDescendant_eq (it : Uint256) (m : ModifiedSet) (desc : Uint256) :
    updateDescendant pool it m desc = m.insert desc (updatedEntry pool desc it (m.lookup desc)) := by
  unfold updateDescendant
  cases m.lookup desc with
  | none => rfl
  | some mit => rfl

lemma lookup_foldl_updateDescendant {it y : Uint256} {l : List Uint256} (hl : l.Nodup) {m : ModifiedSet} :
    (l.foldl (updateDescendant pool it) m).lookup y =
      if y ∈ l then some (updatedEntry pool y it (m.lookup y)) else m.lookup y := by
  induction l generalizing m with
  | nil => simp
  | cons desc l ih =>
    obtain ⟨hdesc, hl⟩ := nodup_cons.mp hl
    rw [foldl_cons, ih hl, updateDescendant_eq]
    by_cases hy : y = desc
    · rw [hy, if_neg hdesc, if_pos mem_cons_self, lookup_insert]
    · rw [lookup_insert_of_ne _ hy]
      simp [hy]

def addedAbove (pool : CTxMemPool sha256) (alreadyAdded : SetEntries) (y : Uint256) : List Uint256 :=
  alreadyAdded.inOrder.filter (fun it => y ∈ descendantsToUpdate pool alreadyAdded it)

lemma nodup_descendantsToUpdate (alreadyAdded : SetEntries) (it : Uint256) :
    (descendantsToUpdate pool alreadyAdded it).Nodup := (SetEntries.nodup_inOrder _).filter _

lemma lookup_updatePackagesForAdded {alreadyAdded : SetEntries} {m : ModifiedSet} {y : Uint256} :
    (updatePackagesForAdded pool alreadyAdded m).1.lookup y =
      (addedAbove pool alreadyAdded y).foldl (fun o it => some (updatedEntry pool y it o)) (m.lookup y) := by
  unfold updatePackagesForAdded addedAbove
  generalize alreadyAdded.inOrder = l
  induction l generalizing m with
  | nil => rfl
  | cons it l ih =>
    rw [foldl_cons, ih, lookup_foldl_updateDescendant (nodup_descendantsToUpdate alreadyAdded it)]
    by_cases hy : y ∈ descendantsToUpdate pool alreadyAdded it
    · rw [if_pos hy, filter_cons_of_pos (by simpa using hy), foldl_cons]
    · rw [if_neg hy, filter_cons_of_neg (by simpa using hy)]

lemma foldl_updatedEntry {y : Uint256} (l : List Uint256) (e : CTxMemPoolModifiedEntry) :
    ∃ e', l.foldl (fun o it => some (updatedEntry pool y it o)) (some e) = some e' ∧
      totals e' = totals e - (l.map (packageShare pool)).sum + (l.map (deltaShare pool)).sum := by
  induction l generalizing e with
  | nil => exact ⟨e, rfl, by simp⟩
  | cons it l ih =>
    obtain ⟨e', he', htotals⟩ := ih (updateForParentInclusion pool it e)
    refine ⟨e', he', ?_⟩
    rw [htotals, totals_updateForParentInclusion, map_cons, map_cons, sum_cons, sum_cons]
    abel

lemma foldl_updatedEntry_of_ne {y : Uint256} {l : List Uint256} {o : Option CTxMemPoolModifiedEntry}
    (h : o.isSome ∨ l ≠ []) :
    ∃ e', l.foldl (fun o it => some (updatedEntry pool y it o)) o = some e' ∧
      totals e' = totals (o.getD (modifiedEntry pool y)) - (l.map (packageShare pool)).sum +
        ((if o.isSome then l else l.tail).map (deltaShare pool)).sum := by
  cases o with
  | some e => exact foldl_updatedEntry l e
  | none =>
    cases l with
    | nil => simp at h
    | cons it l =>
      obtain ⟨e', he', htotals⟩ := foldl_updatedEntry l (updatedEntry pool y it none)
      refine ⟨e', he', ?_⟩
      have hfirst : totals (updatedEntry pool y it none) = totals (modifiedEntry pool y) - packageShare pool it := rfl
      rw [htotals, hfirst, map_cons, sum_cons]
      simp only [Option.getD_none, Option.isSome_none, Bool.false_eq_true, if_false, tail_cons]
      abel

end Updates

section Sets

variable {alreadyAdded : SetEntries} {x y : Uint256}

lemma mem_addedAbove (hlinked : Linked pool) (hsub : alreadyAdded ⊆ pool.mapTx.keys) (hy : y ∈ pool.mapTx) :
    x ∈ addedAbove pool alreadyAdded y ↔ x ∈ alreadyAdded ∧ x ∈ pool.ancestors y ∧ y ∉ alreadyAdded := by
  simp only [addedAbove, descendantsToUpdate, mem_filter, SetEntries.mem_inOrder, decide_eq_true_eq]
  apply and_congr_right
  intro hx
  have hx := mem_keys.mp (hsub hx)
  rw [hlinked.calculateDescendants_eq hx, ← hlinked.mem_ancestors_iff hx hy]

lemma addedAbove_of_mem (hy : y ∈ alreadyAdded) : addedAbove pool alreadyAdded y = [] := by
  rw [addedAbove, filter_eq_nil_iff]
  intro it _
  simp [descendantsToUpdate, hy]

lemma mem_mapTx_of_addedAbove (hlinked : Linked pool) (hsub : alreadyAdded ⊆ pool.mapTx.keys)
    (h : x ∈ addedAbove pool alreadyAdded y) : y ∈ pool.mapTx := by
  simp only [addedAbove, descendantsToUpdate, mem_filter, SetEntries.mem_inOrder, decide_eq_true_eq] at h
  obtain ⟨hx, hy, -⟩ := h
  rw [hlinked.calculateDescendants_eq (mem_keys.mp (hsub hx))] at hy
  exact mem_keys.mp (mem_below.mp hy).1

lemma sum_addedAbove (hlinked : Linked pool) (hsub : alreadyAdded ⊆ pool.mapTx.keys) (hy : y ∈ pool.mapTx)
    (hnew : y ∉ alreadyAdded) {M : Type} [AddCommMonoid M] (f : Uint256 → M) :
    ((addedAbove pool alreadyAdded y).map f).sum = ∑ x ∈ pool.ancestors y ∩ alreadyAdded, f x := by
  have hnodup : (addedAbove pool alreadyAdded y).Nodup := (SetEntries.nodup_inOrder _).filter _
  rw [← sum_toFinset f hnodup]
  apply Finset.sum_congr ?_ (fun _ _ => rfl)
  ext x
  rw [mem_toFinset, mem_addedAbove hlinked hsub hy, Finset.mem_inter]
  tauto

end Sets

noncomputable def unconfirmedTotals (pool : CTxMemPool sha256) (inBlock : SetEntries) (y : Uint256) : ℤ × ℤ × ℤ :=
  ∑ x ∈ pool.ancestors y \ inBlock, packageShare pool x

/-- The totals are those over the ancestors outside the block. -/
structure TotalsExact (pool : CTxMemPool sha256) (inBlock : SetEntries) (c : Candidate) : Prop where
  packageSize : c.packageSize = ∑ x ∈ pool.ancestors c.iter \ inBlock, pool.valueAt (·.getTxSize) x
  packageFees : c.packageFees = ∑ x ∈ pool.ancestors c.iter \ inBlock, pool.valueAt (·.getModifiedFee) x
  packageSigOpsCost : c.packageSigOpsCost = ∑ x ∈ pool.ancestors c.iter \ inBlock, pool.valueAt (·.sigOpCost) x

lemma totalsExact_of_totals {inBlock : SetEntries} {iter : Uint256} {fUsingModified : Bool}
    {e : CTxMemPoolModifiedEntry} (h : totals e = unconfirmedTotals pool inBlock iter) :
    TotalsExact pool inBlock (candidateOf iter fUsingModified e) where
  packageSize := (congrArg (·.1) h).trans fst_sum
  packageFees := (congrArg (·.2.1) h).trans (by simp only [unconfirmedTotals, fst_sum, snd_sum]; rfl)
  packageSigOpsCost := (congrArg (·.2.2) h).trans (by simp only [unconfirmedTotals, snd_sum]; rfl)

section Counting

variable {inBlock package : SetEntries} {y : Uint256}

lemma unconfirmedTotals_union (hdisjoint : Disjoint inBlock package) :
    unconfirmedTotals pool (inBlock ∪ package) y =
      unconfirmedTotals pool inBlock y - ∑ x ∈ pool.ancestors y ∩ package, packageShare pool x := by
  have hinter : pool.ancestors y ∩ package = (pool.ancestors y \ inBlock) ∩ package := by
    ext x
    have hnew : x ∈ package → x ∉ inBlock := fun hx hin => Finset.disjoint_left.mp hdisjoint hin hx
    simp only [Finset.mem_inter, Finset.mem_sdiff]
    tauto
  have hdiff : pool.ancestors y \ (inBlock ∪ package) = (pool.ancestors y \ inBlock) \ package := by
    rw [← Finset.sup_eq_union, sdiff_sdiff_left]
  rw [hinter, unconfirmedTotals, unconfirmedTotals, hdiff, eq_sub_iff_add_eq, add_comm]
  exact Finset.sum_inter_add_sum_sdiff _ _ _

end Counting

section Added

variable {settings : Settings} {s : Selection sha256} {package : SetEntries} {y : Uint256}

lemma mem_sortForBlock {x : Uint256} : x ∈ sortForBlock pool package ↔ x ∈ package := by
  rw [sortForBlock, mem_insertionSort, SetEntries.mem_inOrder]

lemma inBlock_addToBlock {block : Template sha256} {x : Uint256} (hx : x ∈ pool.mapTx) :
    (addToBlock pool settings block x).inBlock = insert x block.inBlock := by
  obtain ⟨e, he⟩ := Option.isSome_iff_exists.mp (lookup_isSome.mpr hx)
  rw [addToBlock, he]

lemma inBlock_foldl_addToBlock {l : List Uint256} (hl : ∀ x ∈ l, x ∈ pool.mapTx) (block : Template sha256) :
    (l.foldl (addToBlock pool settings) block).inBlock = block.inBlock ∪ l.toFinset := by
  induction l generalizing block with
  | nil => simp
  | cons x l ih =>
    rw [foldl_cons, ih (fun z hz => hl z (mem_cons_of_mem x hz)),
      inBlock_addToBlock (hl x mem_cons_self), toFinset_cons, Finset.insert_union, Finset.union_insert]

lemma inBlock_addPackage (hpackage : package ⊆ pool.mapTx.keys) :
    (addPackage pool settings s package).block.inBlock = s.block.inBlock ∪ package := by
  have hsorted : (sortForBlock pool package).toFinset = package := by
    ext x
    rw [mem_toFinset, mem_sortForBlock]
  change ((sortForBlock pool package).foldl (addToBlock pool settings) s.block).inBlock = _
  rw [inBlock_foldl_addToBlock, hsorted]
  intro x hx
  exact mem_keys.mp (hpackage (mem_sortForBlock.mp hx))

lemma lookup_foldl_erase {l : List Uint256} {m : ModifiedSet} :
    (l.foldl (fun m it => m.erase it) m).lookup y = if y ∈ l then none else m.lookup y := by
  induction l generalizing m with
  | nil => simp
  | cons it l ih =>
    rw [foldl_cons, ih]
    by_cases hy : y = it
    · rw [hy, lookup_erase, ite_self, if_pos mem_cons_self]
    · rw [lookup_erase_ne hy]
      simp [hy]

lemma lookup_addPackage : (addPackage pool settings s package).mapModifiedTx.lookup y =
    if y ∈ package then none
    else (addedAbove pool package y).foldl (fun o it => some (updatedEntry pool y it o)) (s.mapModifiedTx.lookup y) := by
  change (updatePackagesForAdded pool package _).1.lookup y = _
  rw [lookup_updatePackagesForAdded, lookup_foldl_erase]
  simp only [mem_sortForBlock]
  split_ifs with hy
  · rw [addedAbove_of_mem hy]
    rfl
  · rfl

def deltasKept (pool : CTxMemPool sha256) (s : Selection sha256) (package : SetEntries) (y : Uint256) : List Uint256 :=
  if y ∈ s.mapModifiedTx then addedAbove pool package y else (addedAbove pool package y).tail

variable (settings) in
lemma exists_lookup_addPackage (hy : y ∉ package) (h : y ∈ s.mapModifiedTx ∨ addedAbove pool package y ≠ []) :
    ∃ e', (addPackage pool settings s package).mapModifiedTx.lookup y = some e' ∧
      totals e' = totals ((s.mapModifiedTx.lookup y).getD (modifiedEntry pool y)) -
        ((addedAbove pool package y).map (packageShare pool)).sum +
        ((deltasKept pool s package y).map (deltaShare pool)).sum := by
  rw [lookup_addPackage, if_neg hy, deltasKept]
  simp only [← lookup_isSome] at h ⊢
  exact foldl_updatedEntry_of_ne h

lemma mem_addPackage_iff (hy : y ∉ package) : y ∈ (addPackage pool settings s package).mapModifiedTx ↔
    y ∈ s.mapModifiedTx ∨ addedAbove pool package y ≠ [] := by
  constructor
  · intro hmem
    by_contra hnot
    rw [not_or, not_not] at hnot
    rw [← lookup_isSome, lookup_addPackage, if_neg hy, hnot.2, lookup_eq_none.mpr hnot.1] at hmem
    cases hmem
  · intro h
    obtain ⟨e', he', -⟩ := exists_lookup_addPackage settings hy h
    exact mem_of_lookup_eq_some he'

end Added

/-- What the selection keeps of the modified set. -/
structure SelectionInv (pool : CTxMemPool sha256) (s : Selection sha256) : Prop where
  sub : s.block.inBlock ⊆ pool.mapTx.keys
  closed : ∀ x ∈ s.block.inBlock, pool.ancestors x ⊆ s.block.inBlock
  modified : ∀ y ∈ s.mapModifiedTx, y ∈ pool.mapTx ∧ y ∉ s.block.inBlock
  stale : ∀ y ∈ pool.mapTx, y ∉ s.block.inBlock → ¬ Disjoint (pool.ancestors y) s.block.inBlock →
    y ∈ s.mapModifiedTx ∨ y ∈ s.failedTx
  next : ∀ y ∈ s.mi, y ∈ pool.mapTx

section Chosen

variable {index : AncestorScore pool} {s t : Selection sha256} {c : Candidate}

lemma chooseEntry_cases (h : chooseEntry pool index s = some (c, t)) :
    (∃ e, s.mapModifiedTx.lookup c.iter = some e ∧ c = candidateOf c.iter true e ∧ t = s) ∨
      ∃ rest, s.mi = c.iter :: rest ∧ c = candidateOf c.iter false (modifiedEntry pool c.iter) ∧
        t = { s with mi := rest } := by
  have hbest : ∀ modit, bestModified pool index s = some modit →
      s.mapModifiedTx.lookup modit.1 = some modit.2 := by
    intro modit hmodit
    obtain ⟨it, -, hmodit⟩ := Option.bind_eq_some_iff.mp hmodit
    obtain ⟨e, he, rfl⟩ := Option.map_eq_some_iff.mp hmodit
    exact he
  unfold chooseEntry at h
  cases hmi : s.mi with
  | nil =>
    rw [hmi] at h
    obtain ⟨modit, hmodit, h⟩ := Option.map_eq_some_iff.mp h
    obtain ⟨rfl, rfl⟩ := Prod.mk.inj h
    exact Or.inl ⟨modit.2, hbest modit hmodit, rfl, rfl⟩
  | cons it rest =>
    rw [hmi] at h
    cases hmodit : bestModified pool index s with
    | none =>
      rw [hmodit] at h
      obtain ⟨rfl, rfl⟩ := Prod.mk.inj (Option.some.inj h)
      exact Or.inr ⟨rest, rfl, rfl, rfl⟩
    | some modit =>
      rw [hmodit] at h
      dsimp only at h
      split_ifs at h with hcompare
      · obtain ⟨rfl, rfl⟩ := Prod.mk.inj (Option.some.inj h)
        exact Or.inl ⟨modit.2, hbest modit hmodit, rfl, rfl⟩
      · obtain ⟨rfl, rfl⟩ := Prod.mk.inj (Option.some.inj h)
        exact Or.inr ⟨rest, rfl, rfl, rfl⟩

lemma SelectionInv.tail (h : SelectionInv pool s) {rest : List Uint256} (hrest : ∀ y ∈ rest, y ∈ s.mi) :
    SelectionInv pool { s with mi := rest } :=
  ⟨h.sub, h.closed, h.modified, h.stale, fun y hy => h.next y (hrest y hy)⟩

lemma SelectionInv.chosen (h : SelectionInv pool s) (hstale : staleNext s = false)
    (hchosen : chooseEntry pool index s = some (c, t)) :
    c.iter ∈ pool.mapTx ∧ c.iter ∉ t.block.inBlock ∧ SelectionInv pool t := by
  obtain ⟨e, he, -, rfl⟩ | ⟨rest, hmi, -, rfl⟩ := chooseEntry_cases hchosen
  · obtain ⟨hmem, hout⟩ := h.modified c.iter (mem_of_lookup_eq_some he)
    exact ⟨hmem, hout, h⟩
  · have hskip : skipMapTxEntry s c.iter = false := by
      rw [staleNext, hmi] at hstale
      exact hstale
    simp only [skipMapTxEntry, Bool.or_eq_false_iff, decide_eq_false_iff_not] at hskip
    refine ⟨h.next c.iter (by rw [hmi]; exact mem_cons_self), hskip.1.2, h.tail ?_⟩
    intro y hy
    rw [hmi]
    exact mem_cons_of_mem c.iter hy

end Chosen

section Steps

variable {settings : Settings} {s : Selection sha256} {c : Candidate}

lemma SelectionInv.dropFailed (h : SelectionInv pool s) (c : Candidate) : SelectionInv pool (dropFailed s c) := by
  unfold BlockAssembler.dropFailed
  split_ifs
  · refine ⟨h.sub, h.closed, ?_, ?_, h.next⟩
    · intro y hy
      exact h.modified y (mem_erase.mp hy).2
    · intro y hy hout hstale
      by_cases hc : y = c.iter
      · exact Or.inr (hc ▸ Finset.mem_insert_self y _)
      · exact (h.stale y hy hout hstale).imp (fun hm => mem_erase.mpr ⟨hc, hm⟩) Finset.mem_insert_of_mem
  · exact h

lemma packageOf_eq (hlinked : Linked pool) {iter : Uint256} (hiter : iter ∈ pool.mapTx) (hout : iter ∉ s.block.inBlock) :
    packageOf pool s iter = pool.ancestors iter \ s.block.inBlock := by
  have hself : iter ∈ pool.ancestors iter := hlinked.dag.mem_above_self (mem_keys.mpr hiter)
  ext x
  rw [packageOf, onlyUnconfirmed, Finset.mem_insert, Finset.mem_filter, hlinked.linkedAncestors_eq hiter,
    Finset.mem_erase, Finset.mem_sdiff]
  by_cases hx : x = iter
  · rw [hx]
    tauto
  · tauto

lemma ancestors_sub_keys (y : Uint256) : pool.ancestors y ⊆ pool.mapTx.keys := fun _ hx => (mem_above.mp hx).1

lemma ancestors_trans {x y : Uint256} (h : x ∈ pool.ancestors y) : pool.ancestors x ⊆ pool.ancestors y := by
  intro z hz
  obtain ⟨hmem, hzx⟩ := mem_above.mp hz
  exact mem_above.mpr ⟨hmem, hzx.trans (mem_above.mp h).2⟩

lemma SelectionInv.mem_addPackage (h : SelectionInv pool s) (hlinked : Linked pool) {iter y : Uint256}
    (hy : y ∈ (addPackage pool settings s (pool.ancestors iter \ s.block.inBlock)).mapModifiedTx) :
    y ∈ pool.mapTx ∧ y ∉ s.block.inBlock ∧ y ∉ pool.ancestors iter := by
  have hsub : pool.ancestors iter \ s.block.inBlock ⊆ pool.mapTx.keys :=
    Finset.sdiff_subset.trans (ancestors_sub_keys iter)
  obtain ⟨e, he⟩ := mem_iff.mp hy
  rw [lookup_addPackage] at he
  split_ifs at he with hpackage
  have hin : y ∈ pool.mapTx ∧ y ∉ s.block.inBlock := by
    cases hadded : addedAbove pool (pool.ancestors iter \ s.block.inBlock) y with
    | nil =>
      rw [hadded] at he
      exact h.modified y (mem_of_lookup_eq_some he)
    | cons x l =>
      have hx : x ∈ addedAbove pool (pool.ancestors iter \ s.block.inBlock) y := by
        rw [hadded]
        exact mem_cons_self
      have hmem := mem_mapTx_of_addedAbove hlinked hsub hx
      obtain ⟨hx, habove, -⟩ := (mem_addedAbove hlinked hsub hmem).mp hx
      -- the ancestors of what is in the block are in the block
      exact ⟨hmem, fun hblock => (Finset.mem_sdiff.mp hx).2 (h.closed y hblock habove)⟩
  exact ⟨hin.1, hin.2, fun habove => hpackage (Finset.mem_sdiff.mpr ⟨habove, hin.2⟩)⟩

lemma SelectionInv.addPackage (h : SelectionInv pool s) (hlinked : Linked pool) (iter : Uint256) :
    SelectionInv pool (addPackage pool settings s (pool.ancestors iter \ s.block.inBlock)) := by
  have hsub : pool.ancestors iter \ s.block.inBlock ⊆ pool.mapTx.keys :=
    Finset.sdiff_subset.trans (ancestors_sub_keys iter)
  have hblock : (BlockAssembler.addPackage pool settings s (pool.ancestors iter \ s.block.inBlock)).block.inBlock =
      s.block.inBlock ∪ pool.ancestors iter := by
    rw [inBlock_addPackage hsub, Finset.union_sdiff_self_eq_union]
  refine ⟨?_, ?_, ?_, ?_, h.next⟩
  · rw [hblock]
    exact Finset.union_subset h.sub (ancestors_sub_keys iter)
  · rw [hblock]
    intro x hx
    obtain hx | hx := Finset.mem_union.mp hx
    · exact (h.closed x hx).trans Finset.subset_union_left
    · exact (ancestors_trans hx).trans Finset.subset_union_right
  · intro y hy
    obtain ⟨hmem, hout, hnot⟩ := h.mem_addPackage hlinked hy
    rw [hblock, Finset.mem_union]
    exact ⟨hmem, by tauto⟩
  · rw [hblock]
    intro y hy hout hstale
    rw [Finset.mem_union, not_or] at hout
    have hpackage : y ∉ pool.ancestors iter \ s.block.inBlock := fun hy => hout.2 (Finset.mem_sdiff.mp hy).1
    obtain ⟨x, hxy, hx⟩ := Finset.not_disjoint_iff.mp hstale
    by_cases hxin : x ∈ s.block.inBlock
    · refine (h.stale y hy hout.1 (Finset.not_disjoint_iff.mpr ⟨x, hxy, hxin⟩)).imp ?_ (fun hf => hf)
      intro hm
      exact (mem_addPackage_iff hpackage).mpr (Or.inl hm)
    · have hx : x ∈ pool.ancestors iter \ s.block.inBlock :=
        Finset.mem_sdiff.mpr ⟨(Finset.mem_union.mp hx).resolve_left hxin, hxin⟩
      refine Or.inl ((mem_addPackage_iff hpackage).mpr (Or.inr ?_))
      exact ne_nil_of_mem ((mem_addedAbove hlinked hsub hy).mpr ⟨hx, hxy, hpackage⟩)

end Steps

/-- The modified set counts exactly. -/
def ModifiedExact (pool : CTxMemPool sha256) (s : Selection sha256) : Prop :=
  ∀ y e, s.mapModifiedTx.lookup y = some e → totals e = unconfirmedTotals pool s.block.inBlock y

/-- A package can be counted off the totals of its descendants: none of them has to be counted from `mapTx`
again while ancestors of it are in the block, and the fee deltas that stay in its totals cancel. -/
def UpdatesAgree (pool : CTxMemPool sha256) (s : Selection sha256) (package : SetEntries) : Prop :=
  ∀ y ∈ pool.mapTx, y ∉ s.block.inBlock → y ∉ package → addedAbove pool package y ≠ [] →
    (y ∉ s.mapModifiedTx → Disjoint (pool.ancestors y) s.block.inBlock) ∧
      ((deltasKept pool s package y).map (pool.valueAt (·.feeDelta))).sum = 0

section Exactness

variable {settings : Settings} {s : Selection sha256}

lemma sum_deltaShare (l : List Uint256) :
    (l.map (deltaShare pool)).sum = (0, (l.map (pool.valueAt (·.feeDelta))).sum, 0) := by
  induction l with
  | nil => rfl
  | cons x l ih =>
    rw [map_cons, sum_cons, ih, map_cons, sum_cons, deltaShare, mk_add_mk, mk_add_mk,
      add_zero]

noncomputable def recounted (pool : CTxMemPool sha256) (s : Selection sha256) (y : Uint256) : SetEntries :=
  if y ∈ s.mapModifiedTx then ∅ else pool.ancestors y ∩ s.block.inBlock

variable (settings) in
lemma exists_totals_addPackage (hacc : Accounting pool) (hexact : ModifiedExact pool s) {iter y : Uint256}
    (hy : y ∈ pool.mapTx) (hpackage : y ∉ pool.ancestors iter \ s.block.inBlock)
    (h : y ∈ s.mapModifiedTx ∨ addedAbove pool (pool.ancestors iter \ s.block.inBlock) y ≠ []) :
    ∃ e', (addPackage pool settings s (pool.ancestors iter \ s.block.inBlock)).mapModifiedTx.lookup y = some e' ∧
      totals e' = unconfirmedTotals pool (s.block.inBlock ∪ pool.ancestors iter \ s.block.inBlock) y +
        (∑ x ∈ recounted pool s y, packageShare pool x +
          (0, ((deltasKept pool s (pool.ancestors iter \ s.block.inBlock) y).map (pool.valueAt (·.feeDelta))).sum, 0)) := by
  have hsub : pool.ancestors iter \ s.block.inBlock ⊆ pool.mapTx.keys :=
    Finset.sdiff_subset.trans (ancestors_sub_keys iter)
  obtain ⟨e', he', htotals⟩ := exists_lookup_addPackage settings hpackage h
  refine ⟨e', he', ?_⟩
  have hbase : totals ((s.mapModifiedTx.lookup y).getD (modifiedEntry pool y)) =
      unconfirmedTotals pool s.block.inBlock y + ∑ x ∈ recounted pool s y, packageShare pool x := by
    unfold recounted
    split_ifs with hm
    · obtain ⟨e, he⟩ := mem_iff.mp hm
      rw [he, Option.getD_some, hexact y e he, Finset.sum_empty, add_zero]
    · rw [lookup_eq_none.mpr hm, Option.getD_none, totals_modifiedEntry hacc hy, unconfirmedTotals, add_comm]
      exact (Finset.sum_inter_add_sum_sdiff _ _ _).symm
  rw [htotals, hbase, sum_addedAbove hacc.linked hsub hy hpackage, sum_deltaShare,
    unconfirmedTotals_union Finset.disjoint_sdiff]
  abel

lemma sum_recounted_eq_zero_iff {y : Uint256} {delta : ℤ} :
    ∑ x ∈ recounted pool s y, packageShare pool x + (0, delta, 0) = 0 ↔
      (y ∉ s.mapModifiedTx → Disjoint (pool.ancestors y) s.block.inBlock) ∧ delta = 0 := by
  have hempty : (y ∉ s.mapModifiedTx → Disjoint (pool.ancestors y) s.block.inBlock) ↔ recounted pool s y = ∅ := by
    unfold recounted
    split_ifs with hm
    · simp [hm]
    · simp [hm, Finset.disjoint_iff_inter_eq_empty]
  rw [hempty]
  constructor
  · intro h
    have hsize := congrArg (fun totals => totals.1) h
    simp only [fst_add, fst_sum, add_zero, packageShare, fst_zero] at hsize
    have hnone : recounted pool s y = ∅ := by
      by_contra hne
      have hpos : ∀ x ∈ recounted pool s y, 0 < pool.valueAt (·.getTxSize) x := by
        intro x hx
        have hmem : x ∈ pool.ancestors y := by
          unfold recounted at hx
          split_ifs at hx with hm
          · exact absurd hx (Finset.notMem_empty x)
          · exact (Finset.mem_inter.mp hx).1
        obtain ⟨e, he⟩ := exists_coreAt (mem_keys.mp (ancestors_sub_keys y hmem))
        rw [valueAt_eq_of_core (fun _ => rfl) he]
        exact e.getTxSize_pos
      exact (Finset.sum_pos hpos (Finset.nonempty_iff_ne_empty.mpr hne)).ne' hsize
    rw [hnone, Finset.sum_empty, zero_add] at h
    exact ⟨hnone, congrArg (fun totals => totals.2.1) h⟩
  · rintro ⟨hnone, rfl⟩
    rw [hnone, Finset.sum_empty]
    rfl

lemma modifiedExact_addPackage_iff (hinv : SelectionInv pool s) (hacc : Accounting pool)
    (hexact : ModifiedExact pool s) (iter : Uint256) :
    ModifiedExact pool (addPackage pool settings s (pool.ancestors iter \ s.block.inBlock)) ↔
      UpdatesAgree pool s (pool.ancestors iter \ s.block.inBlock) := by
  have hsub : pool.ancestors iter \ s.block.inBlock ⊆ pool.mapTx.keys :=
    Finset.sdiff_subset.trans (ancestors_sub_keys iter)
  constructor
  · intro h y hy hout hpackage hadded
    obtain ⟨e', he', htotals⟩ := exists_totals_addPackage settings hacc hexact hy hpackage (Or.inr hadded)
    rw [h y e' he', inBlock_addPackage hsub, left_eq_add] at htotals
    exact sum_recounted_eq_zero_iff.mp htotals
  · intro h y e' he'
    obtain ⟨hy, hout, hiter⟩ := hinv.mem_addPackage hacc.linked (mem_of_lookup_eq_some he')
    have hpackage : y ∉ pool.ancestors iter \ s.block.inBlock := fun hy => hiter (Finset.mem_sdiff.mp hy).1
    have hcounted := (mem_addPackage_iff hpackage).mp (mem_of_lookup_eq_some he')
    have hagree : (y ∉ s.mapModifiedTx → Disjoint (pool.ancestors y) s.block.inBlock) ∧
        ((deltasKept pool s (pool.ancestors iter \ s.block.inBlock) y).map (pool.valueAt (·.feeDelta))).sum = 0 := by
      by_cases hadded : addedAbove pool (pool.ancestors iter \ s.block.inBlock) y = []
      · have hm := hcounted.resolve_right (not_not.mpr hadded)
        rw [deltasKept, if_pos hm, hadded]
        exact ⟨fun hnot => absurd hm hnot, rfl⟩
      · exact h y hy hout hpackage hadded
    obtain ⟨e, he, htotals⟩ := exists_totals_addPackage settings hacc hexact hy hpackage hcounted
    obtain rfl : e = e' := Option.some.inj (he.symm.trans he')
    rw [htotals, sum_recounted_eq_zero_iff.mpr hagree, add_zero, inBlock_addPackage hsub]

end Exactness

/-- The package of a candidate that is added. -/
structure Accepted (pool : CTxMemPool sha256) (settings : Settings) (s : Selection sha256) (c : Candidate) : Prop where
  fees : ¬ c.packageFees < settings.blockMinFeeRate.getFee c.packageSize
  limits : testPackage settings s.block c.packageSize c.packageSigOpsCost = true
  transactions : testPackageTransactions pool settings s.block (packageOf pool s c.iter) = true

/-- An iteration counts off each entry once, with the fee it was counted with. -/
def StepAgrees (pool : CTxMemPool sha256) (settings : Settings) (index : AncestorScore pool) (s : Selection sha256) : Prop :=
  ∀ c t, staleNext s = false → chooseEntry pool index s = some (c, t) → Accepted pool settings t c →
    UpdatesAgree pool t (packageOf pool t c.iter)

section Runs

variable {settings : Settings} {index : AncestorScore pool} {s t : Selection sha256} {c : Candidate}

lemma evaluate_cases (h : evaluate pool settings s c = .running t) :
    (¬ Accepted pool settings s c ∧ ∃ n, t = { dropFailed s c with nConsecutiveFailed := n }) ∨
      (Accepted pool settings s c ∧ t = addPackage pool settings s (packageOf pool s c.iter)) := by
  unfold evaluate at h
  dsimp only at h
  split_ifs at h with hblock hfees hlimits hend htransactions
  · refine Or.inl ⟨?_, _, (LoopResult.running.inj h).symm⟩
    intro haccepted
    rw [haccepted.limits] at hlimits
    cases hlimits
  · refine Or.inl ⟨?_, (dropFailed s c).nConsecutiveFailed, (LoopResult.running.inj h).symm⟩
    intro haccepted
    rw [haccepted.transactions] at htransactions
    cases htransactions
  · refine Or.inr ⟨⟨hfees, ?_, ?_⟩, (LoopResult.running.inj h).symm⟩
    · simpa using hlimits
    · simpa using htransactions

lemma addPackageStep_cases (h : addPackageStep pool settings index s = .running t) :
    (staleNext s = true ∧ t = { s with mi := s.mi.tail }) ∨
      ∃ c s', staleNext s = false ∧ chooseEntry pool index s = some (c, s') ∧ evaluate pool settings s' c = .running t := by
  unfold addPackageStep at h
  split_ifs at h with hstale
  · exact Or.inl ⟨hstale, (LoopResult.running.inj h).symm⟩
  · cases hchosen : chooseEntry pool index s with
    | none =>
      rw [hchosen] at h
      cases h
    | some chosen =>
      rw [hchosen] at h
      exact Or.inr ⟨chosen.1, chosen.2, Bool.eq_false_of_not_eq_true hstale, rfl, h⟩

lemma mapModifiedTx_start (index : AncestorScore pool) : (selectionStart pool index resetBlock).mapModifiedTx = ∅ := by
  have hnone : (resetBlock : Template sha256).inBlock.inOrder = [] := Finset.sort_empty _
  unfold selectionStart updatePackagesForAdded
  rw [hnone]
  rfl

lemma SelectionInv.start : SelectionInv pool (selectionStart pool index resetBlock) := by
  refine ⟨Finset.empty_subset _, ?_, ?_, ?_, fun y hy => (index.mem_mapTx y).mp hy⟩
  · intro x hx
    exact absurd hx (Finset.notMem_empty x)
  · intro y hy
    rw [mapModifiedTx_start] at hy
    exact absurd hy notMem_empty
  · intro y _ _ hstale
    exact absurd (Finset.disjoint_empty_right _) hstale

lemma SelectionInv.step (h : SelectionInv pool s) (hlinked : Linked pool)
    (hstep : addPackageStep pool settings index s = .running t) : SelectionInv pool t := by
  obtain ⟨-, rfl⟩ | ⟨c, s', hstale, hchosen, heval⟩ := addPackageStep_cases hstep
  · exact h.tail (fun y hy => mem_of_mem_tail hy)
  · obtain ⟨hiter, hout, h'⟩ := h.chosen hstale hchosen
    obtain ⟨-, n, rfl⟩ | ⟨-, rfl⟩ := evaluate_cases heval
    · exact ⟨(h'.dropFailed c).sub, (h'.dropFailed c).closed, (h'.dropFailed c).modified, (h'.dropFailed c).stale,
        (h'.dropFailed c).next⟩
    · rw [packageOf_eq hlinked hiter hout]
      exact h'.addPackage hlinked c.iter

lemma ModifiedExact.dropFailed (h : ModifiedExact pool s) (c : Candidate) : ModifiedExact pool (dropFailed s c) := by
  unfold BlockAssembler.dropFailed
  split_ifs
  · intro y e he
    by_cases hy : y = c.iter
    · rw [hy, lookup_erase] at he
      cases he
    · exact h y e ((lookup_erase_ne hy).symm.trans he)
  · exact h

lemma chooseEntry_keeps (h : chooseEntry pool index s = some (c, t)) :
    t.mapModifiedTx = s.mapModifiedTx ∧ t.block = s.block := by
  obtain ⟨-, -, -, rfl⟩ | ⟨rest, -, -, rfl⟩ := chooseEntry_cases h
  · exact ⟨rfl, rfl⟩
  · exact ⟨rfl, rfl⟩

lemma ModifiedExact.chosen (h : ModifiedExact pool s) (hchosen : chooseEntry pool index s = some (c, t)) :
    ModifiedExact pool t := by
  obtain ⟨hm, hblock⟩ := chooseEntry_keeps hchosen
  unfold ModifiedExact
  rw [hm, hblock]
  exact h

lemma modifiedExact_step_iff (hinv : SelectionInv pool s) (hacc : Accounting pool) (hexact : ModifiedExact pool s)
    (hstep : addPackageStep pool settings index s = .running t) :
    ModifiedExact pool t ↔ StepAgrees pool settings index s := by
  obtain ⟨hstale, rfl⟩ | ⟨c, s', hstale, hchosen, heval⟩ := addPackageStep_cases hstep
  · refine iff_of_true hexact ?_
    intro c t hfresh
    rw [hstale] at hfresh
    cases hfresh
  · obtain ⟨hiter, hout, hinv'⟩ := hinv.chosen hstale hchosen
    have hexact' := hexact.chosen hchosen
    have honly : StepAgrees pool settings index s ↔
        (Accepted pool settings s' c → UpdatesAgree pool s' (packageOf pool s' c.iter)) := by
      constructor
      · intro h
        exact h c s' hstale hchosen
      · intro h c₁ t₁ _ hchosen₁
        obtain ⟨rfl, rfl⟩ := Prod.mk.inj (Option.some.inj (hchosen.symm.trans hchosen₁))
        exact h
    rw [honly]
    obtain ⟨hfailed, n, rfl⟩ | ⟨haccepted, rfl⟩ := evaluate_cases heval
    · exact iff_of_true (hexact'.dropFailed c) (fun haccepted => absurd haccepted hfailed)
    · rw [packageOf_eq hacc.linked hiter hout, modifiedExact_addPackage_iff hinv' hacc hexact' c.iter]
      exact ⟨fun h _ => h, fun h => h haccepted⟩

lemma totalsExact_of_chosen (hinv : SelectionInv pool s) (hacc : Accounting pool) (hexact : ModifiedExact pool s)
    (hstale : staleNext s = false) (hchosen : chooseEntry pool index s = some (c, t)) :
    TotalsExact pool t.block.inBlock c := by
  obtain ⟨e, he, hc, rfl⟩ | ⟨rest, hmi, hc, rfl⟩ := chooseEntry_cases hchosen
  · rw [hc]
    exact totalsExact_of_totals (hexact c.iter e he)
  · have hskip : skipMapTxEntry s c.iter = false := by
      rw [staleNext, hmi] at hstale
      exact hstale
    simp only [skipMapTxEntry, Bool.or_eq_false_iff, decide_eq_false_iff_not] at hskip
    have hiter := hinv.next c.iter (by rw [hmi]; exact mem_cons_self)
    -- an entry that is neither modified nor failed has no ancestor in the block
    have hdisjoint : Disjoint (pool.ancestors c.iter) s.block.inBlock := by
      by_contra hnot
      obtain hm | hf := hinv.stale c.iter hiter hskip.1.2 hnot
      · exact hskip.1.1 hm
      · exact hskip.2 hf
    rw [hc]
    apply totalsExact_of_totals
    rw [unconfirmedTotals, Finset.sdiff_eq_self_of_disjoint hdisjoint]
    exact totals_modifiedEntry hacc hiter

end Runs

lemma SelectionInv.run {settings : Settings} {index : AncestorScore pool} {s : Selection sha256} (hlinked : Linked pool)
    (hrun : Relation.ReflTransGen (fun s t => addPackageStep pool settings index s = .running t)
      (selectionStart pool index resetBlock) s) : SelectionInv pool s := by
  induction hrun with
  | refl => exact SelectionInv.start
  | tail _ hstep ih => exact ih.step hlinked hstep

/-- The package totals in a run of `addPackageTxs` whose iterations all agree are exact; the iteration that
does not agree leaves a modified entry whose totals are not. -/
theorem packageTotals_exact_of_agree (pool : CTxMemPool sha256) (hacc : Accounting pool) (settings : Settings)
    (index : AncestorScore pool) {s : Selection sha256}
    (hrun : Relation.ReflTransGen
      (fun s t => addPackageStep pool settings index s = .running t ∧ StepAgrees pool settings index s)
      (selectionStart pool index resetBlock) s) :
    (∀ c t, staleNext s = false → chooseEntry pool index s = some (c, t) → TotalsExact pool t.block.inBlock c) ∧
      ∀ t, addPackageStep pool settings index s = .running t →
        (ModifiedExact pool t ↔ StepAgrees pool settings index s) := by
  have hreached : SelectionInv pool s ∧ ModifiedExact pool s := by
    induction hrun with
    | refl =>
      refine ⟨SelectionInv.start, ?_⟩
      intro y e he
      rw [mapModifiedTx_start] at he
      cases he
    | tail _ hstep ih =>
      exact ⟨ih.1.step hacc.linked hstep.1, (modifiedExact_step_iff ih.1 hacc ih.2 hstep.1).mpr hstep.2⟩
  exact ⟨fun c t hstale hchosen => totalsExact_of_chosen hreached.1 hacc hreached.2 hstale hchosen,
    fun t hstep => modifiedExact_step_iff hreached.1 hacc hreached.2 hstep⟩

section Chain

/-- A pool of three entries, each the parent of the next. -/
structure IsChain (pool : CTxMemPool sha256) (a b c : Uint256) : Prop where
  keys : pool.mapTx.keys = {a, b, c}
  first : pool.ancestors a = {a}
  second : pool.ancestors b = {a, b}
  third : pool.ancestors c = {a, b, c}
  distinct : a < b ∧ c ≠ a ∧ c ≠ b

variable {settings : Settings} {index : AncestorScore pool} {s : Selection sha256} {a b c : Uint256}

lemma chooseEntry_of_empty {it : Uint256} {rest : List Uint256} (hm : s.mapModifiedTx = ∅) (hmi : s.mi = it :: rest) :
    chooseEntry pool index s = some (candidateOf it false (modifiedEntry pool it), { s with mi := rest }) := by
  have hbest : bestModified pool index s = none := by
    cases hbest : bestModified pool index s with
    | none => rfl
    | some modit =>
      obtain ⟨it, hit, -⟩ := Option.bind_eq_some_iff.mp hbest
      have hmem := index.mem_of_first s.mapModifiedTx it hit
      rw [hm] at hmem
      exact absurd hmem notMem_empty
  unfold chooseEntry
  rw [hmi, hbest]

lemma chooseEntry_of_single {it : Uint256} {e : CTxMemPoolModifiedEntry} (hmi : s.mi = [])
    (he : s.mapModifiedTx.lookup it = some e) (honly : ∀ y ∈ s.mapModifiedTx, y = it) :
    chooseEntry pool index s = some (candidateOf it true e, s) := by
  have hbest : bestModified pool index s = some (it, e) := by
    unfold bestModified
    cases hfirst : index.first s.mapModifiedTx with
    | none =>
      rw [index.empty_of_first s.mapModifiedTx hfirst] at he
      cases he
    | some y =>
      rw [honly y (index.mem_of_first s.mapModifiedTx y hfirst), Option.bind_some, he]
      rfl
  unfold chooseEntry
  rw [hmi, hbest]
  rfl

lemma inOrder_pair (h : a < b) : SetEntries.inOrder {a, b} = [a, b] := by
  have hle : ∀ y ∈ ({b} : SetEntries), a ≤ y := by
    intro y hy
    rw [Finset.mem_singleton.mp hy]
    exact h.le
  have hnot : a ∉ ({b} : SetEntries) := fun hmem => h.ne (Finset.mem_singleton.mp hmem)
  exact (Finset.sort_insert _ hle hnot).trans (by rw [Finset.sort_singleton])

lemma addPackageStep_of_stale (h : staleNext s = true) :
    addPackageStep pool settings index s = .running { s with mi := s.mi.tail } := if_pos h

lemma evaluate_of_accepted {c : Candidate} (hout : c.iter ∉ s.block.inBlock) (h : Accepted pool settings s c) :
    evaluate pool settings s c = .running (addPackage pool settings s (packageOf pool s c.iter)) := by
  unfold evaluate
  rw [if_neg hout, if_neg h.fees, if_neg (by simp [h.limits]), if_neg (by simp [h.transactions])]

def chainStart (pool : CTxMemPool sha256) (index : AncestorScore pool) (a c : Uint256) : Selection sha256 :=
  { selectionStart pool index resetBlock with mi := [c, a] }

variable (settings index) in
lemma IsChain.totals_last (h : IsChain pool a b c) (hacc : Accounting pool) :
    ∃ e, (addPackage pool settings (chainStart pool index a c) {a, b}).mapModifiedTx.lookup c = some e ∧
      totals e = unconfirmedTotals pool {a, b} c + (0, pool.valueAt (·.feeDelta) b, 0) := by
  obtain ⟨hab, hca, hcb⟩ := h.distinct
  have hc : c ∈ pool.mapTx := mem_keys.mp (by rw [h.keys]; simp)
  have hpackage : pool.ancestors b \ (chainStart pool index a c).block.inBlock = {a, b} :=
    Finset.sdiff_empty.trans h.second
  have hsub : ({a, b} : SetEntries) ⊆ pool.mapTx.keys := by
    rw [← h.second]
    exact ancestors_sub_keys b
  have hout : c ∉ ({a, b} : SetEntries) := by simp [hca, hcb]
  have hadded : addedAbove pool {a, b} c = [a, b] := by
    have hall : ∀ x ∈ SetEntries.inOrder {a, b}, x ∈ addedAbove pool {a, b} c := by
      intro x hx
      have hx := SetEntries.mem_inOrder.mp hx
      refine (mem_addedAbove hacc.linked hsub hc).mpr ⟨hx, ?_, hout⟩
      rw [h.third]
      simp only [Finset.mem_insert, Finset.mem_singleton] at hx ⊢
      tauto
    rw [← inOrder_pair hab]
    exact filter_eq_self.mpr fun x hx => (mem_filter.mp (hall x hx)).2
  have hnone : (chainStart pool index a c).mapModifiedTx = ∅ := mapModifiedTx_start index
  have hexact : ModifiedExact pool (chainStart pool index a c) := by
    intro y e he
    rw [hnone] at he
    cases he
  obtain ⟨e, he, htotals⟩ := exists_totals_addPackage settings hacc hexact hc (hpackage ▸ hout)
    (Or.inr (by rw [hpackage, hadded]; exact cons_ne_nil _ _))
  rw [hpackage] at he htotals
  have hmem : c ∉ (chainStart pool index a c).mapModifiedTx := by
    rw [hnone]
    exact notMem_empty
  have hrecounted : recounted pool (chainStart pool index a c) c = ∅ :=
    (if_neg hmem).trans (Finset.inter_empty _)
  have hkept : deltasKept pool (chainStart pool index a c) {a, b} c = [b] := by
    rw [deltasKept, if_neg hmem, hadded]
    rfl
  have hblock : (chainStart pool index a c).block.inBlock ∪ {a, b} = {a, b} := Finset.empty_union _
  rw [hrecounted, hkept, hblock, Finset.sum_empty, zero_add, map_singleton, sum_singleton] at htotals
  exact ⟨e, he, htotals⟩

lemma IsChain.exists_inexact (h : IsChain pool a b c) (hacc : Accounting pool) (hindex : index.mapTx = [b, c, a])
    (haccepted : Accepted pool settings (chainStart pool index a c) (candidateOf b false (modifiedEntry pool b)))
    (hdelta : pool.valueAt (·.feeDelta) b ≠ 0) :
    ∃ s c t, Relation.ReflTransGen (fun s t => addPackageStep pool settings index s = .running t)
        (selectionStart pool index resetBlock) s ∧ staleNext s = false ∧
      chooseEntry pool index s = some (c, t) ∧ ¬ TotalsExact pool t.block.inBlock c := by
  have hb : b ∈ pool.mapTx := mem_keys.mp (by rw [h.keys]; simp)
  have hsub : ({a, b} : SetEntries) ⊆ pool.mapTx.keys := by
    rw [← h.second]
    exact ancestors_sub_keys b
  have hpackage : packageOf pool (chainStart pool index a c) b = {a, b} :=
    (packageOf_eq hacc.linked hb (Finset.notMem_empty b)).trans (Finset.sdiff_empty.trans h.second)
  obtain ⟨e, he, htotals⟩ := h.totals_last settings index hacc
  have hblock : (addPackage pool settings (chainStart pool index a c) {a, b}).block.inBlock = {a, b} :=
    (inBlock_addPackage hsub).trans (Finset.empty_union _)
  have hmi : (addPackage pool settings (chainStart pool index a c) {a, b}).mi = [c, a] := rfl
  generalize hs : addPackage pool settings (chainStart pool index a c) {a, b} = s at he hblock hmi
  have hfresh : staleNext (selectionStart pool index resetBlock) = false := by
    have hmi₀ : (selectionStart pool index resetBlock).mi = [b, c, a] := hindex
    unfold staleNext skipMapTxEntry
    rw [hmi₀, mapModifiedTx_start]
    rfl
  have hstep₁ : addPackageStep pool settings index (selectionStart pool index resetBlock) = .running s := by
    unfold addPackageStep
    rw [if_neg (by simp [hfresh]), chooseEntry_of_empty (mapModifiedTx_start index) hindex, ← hs, ← hpackage]
    exact evaluate_of_accepted (Finset.notMem_empty b) haccepted
  -- the last entry is modified and the first one in the block, so both are skipped
  have hstep₂ : addPackageStep pool settings index s = .running { s with mi := [a] } := by
    have hstale : staleNext s = true := by
      unfold staleNext skipMapTxEntry
      rw [hmi]
      simp [mem_of_lookup_eq_some he]
    rw [addPackageStep_of_stale hstale, hmi]
    rfl
  have hstep₃ : addPackageStep pool settings index { s with mi := [a] } = .running { s with mi := [] } := by
    have hstale : staleNext { s with mi := [a] } = true := by
      unfold staleNext skipMapTxEntry
      simp [hblock]
    rw [addPackageStep_of_stale hstale]
    rfl
  have hreached : Relation.ReflTransGen (fun s t => addPackageStep pool settings index s = .running t)
      (selectionStart pool index resetBlock) { s with mi := [] } :=
    Relation.ReflTransGen.head hstep₁ (Relation.ReflTransGen.head hstep₂ (Relation.ReflTransGen.single hstep₃))
  have hinv := SelectionInv.run hacc.linked hreached
  have honly : ∀ y ∈ s.mapModifiedTx, y = c := by
    intro y hy
    obtain ⟨hmem, hout⟩ := hinv.modified y hy
    rw [← Finmap.mem_keys, h.keys] at hmem
    rw [show ({ s with mi := [] } : Selection sha256).block = s.block from rfl, hblock] at hout
    simp only [Finset.mem_insert, Finset.mem_singleton] at hmem hout
    tauto
  refine ⟨_, _, _, hreached, rfl, chooseEntry_of_single rfl he honly, ?_⟩
  intro hexact
  have hfees := hexact.packageFees
  have hstored := congrArg (fun totals => totals.2.1) htotals
  rw [show ({ s with mi := [] } : Selection sha256).block = s.block from rfl, hblock] at hfees
  simp only [unconfirmedTotals, snd_add, fst_add, snd_sum, fst_sum] at hstored
  exact hdelta (left_eq_add.mp (hfees.symm.trans hstored))

lemma testTransactionsLoop_of_final {l : List Uint256} {nPotentialBlockSize : ℕ} (hwitness : settings.fIncludeWitness = true)
    (hsize : settings.fNeedSizeAccounting = false)
    (hfinal : ∀ it ∈ l, ∀ e, pool.mapTx.lookup it = some e →
      isFinalTx e.tx.toCMutableTransaction settings.nHeight settings.nLockTimeCutoff = true) :
    testTransactionsLoop pool settings l nPotentialBlockSize = true := by
  induction l with
  | nil => rfl
  | cons it l ih =>
    have hrest := ih fun y hy => hfinal y (mem_cons_of_mem it hy)
    unfold testTransactionsLoop
    cases he : pool.mapTx.lookup it with
    | none => exact hrest
    | some e => simpa [hfinal it mem_cons_self e he, hwitness, hsize] using hrest

/-- An order by score of which only the order of `mapTx` matters. -/
def listedScore (pool : CTxMemPool sha256) (l : List Uint256) (hmem : ∀ it, it ∈ l ↔ it ∈ pool.mapTx) (hnodup : l.Nodup) :
    AncestorScore pool where
  mapTx := l
  mem_mapTx := hmem
  nodup_mapTx := hnodup
  first m := SetEntries.first m.keys
  mem_of_first _ _ h := mem_keys.mp (SetEntries.takes_first.mem h)
  empty_of_first m h := by
    apply ext_lookup
    intro it
    rw [Finmap.lookup_empty, Finmap.lookup_eq_none, ← Finmap.mem_keys, SetEntries.takes_first.empty h]
    exact Finset.notMem_empty it
  compareModifiedEntry a b :=
    decide (b.2.nModFeesWithAncestors * a.2.nSizeWithAncestors < a.2.nModFeesWithAncestors * b.2.nSizeWithAncestors)

def freeSettings : Settings := Settings.make ⟨MAX_BLOCK_WEIGHT, MAX_BLOCK_SERIALIZED_SIZE, ⟨0⟩⟩ true 1 0

def raisedPair (pool : CTxMemPool cSHA256) : Bool :=
  decide (pool.mapTx.keys = {firstLink.hash, secondLink.hash} ∧ pool.linkedAncestors firstLink.hash = ∅ ∧
    pool.linkedAncestors secondLink.hash = {firstLink.hash}) &&
  [firstLink.hash, secondLink.hash].all fun it =>
    decide (pool.valueAt (·.getTxSize) it = 573 ∧ pool.valueAt (·.sigOpCost) it = 0 ∧
      pool.valueAt (·.nFee) it = 1000 ∧ pool.valueAt (·.feeDelta) it = if it = secondLink.hash then 500 else 0) &&
    (pool.mapTx.lookup it).all fun e => isFinalTx e.tx.toCMutableTransaction 1 0

lemma getFee_zero (nSize : ℤ) : (⟨0⟩ : CFeeRate).getFee nSize = 0 := by
  simp [CFeeRate.getFee]

lemma exists_raisedChain : ∃ pool₀ pool₁ pool₂ pool : CTxMemPool cSHA256,
    CTxMemPool.empty.prioritiseTransaction secondLink.hash 500 = some pool₀ ∧
    pool₀.addUnchecked (linkEntry firstLink) ∅ = some pool₁ ∧
    pool₁.addUnchecked (linkEntry secondLink) {firstLink.hash} = some pool₂ ∧
    pool₂.addUnchecked (linkEntry thirdLink) {firstLink.hash, secondLink.hash} = some pool ∧
    raisedPair pool₂ = true ∧ Accounting pool₂ ∧ Accounting pool ∧ ∃ e, e.tx = thirdLink ∧
      Added pool₂ pool e {firstLink.hash, secondLink.hash} ∧
      IsAncestorSet pool₂ e.tx {firstLink.hash, secondLink.hash} ∧ e.tx.hash ∉ pool₂.mapTx := by
  have hin₀ : (BookCall.prioritiseTransaction secondLink.hash 500).InStep chainTx CTxMemPool.empty ∅ := rfl
  obtain ⟨pool₀, hrun₀, hinv₀⟩ := bookInvariant_empty.call chain_acyclic hin₀
  have hrun₀ : CTxMemPool.empty.prioritiseTransaction secondLink.hash 500 = some pool₀ := hrun₀
  have hcheck₁ : (CTxMemPool.empty.prioritiseTransaction secondLink.hash 500).map (fun pool =>
      addableCheck pool firstLink ∅ && decide (pool.spendersOf firstLink.hash = ∅)) = some true := by
    decide +kernel
  rw [hrun₀, Option.map_some, Option.some.injEq] at hcheck₁
  obtain ⟨pool₁, hrun₁, hinv₁⟩ := exists_addLink hinv₀ (Or.inl rfl) hcheck₁
  have hcheck₂ : ((CTxMemPool.empty.prioritiseTransaction secondLink.hash 500).bind
      (·.addUnchecked (linkEntry firstLink) ∅)).map (fun pool =>
        addableCheck pool secondLink {firstLink.hash} && decide (pool.spendersOf secondLink.hash = ∅)) = some true := by
    decide +kernel
  rw [hrun₀, Option.bind_some, hrun₁, Option.map_some, Option.some.injEq] at hcheck₂
  obtain ⟨pool₂, hrun₂, hinv₂⟩ := exists_addLink hinv₁ (Or.inr (Or.inl rfl)) hcheck₂
  have hcheck₃ : (((CTxMemPool.empty.prioritiseTransaction secondLink.hash 500).bind
      (·.addUnchecked (linkEntry firstLink) ∅)).bind
      (·.addUnchecked (linkEntry secondLink) {firstLink.hash})).map (fun pool =>
        (addableCheck pool thirdLink {firstLink.hash, secondLink.hash} &&
          decide (pool.spendersOf thirdLink.hash = ∅), raisedPair pool)) = some (true, true) := by
    decide +kernel
  rw [hrun₀, Option.bind_some, hrun₁, Option.bind_some, hrun₂, Option.map_some, Option.some.injEq,
    Prod.mk.injEq] at hcheck₃
  obtain ⟨pool, hrun, hinv⟩ := exists_addLink hinv₂ (Or.inr (Or.inr rfl)) hcheck₃.1
  have hacc₂ := readded_empty_iff.mp hinv₂.readded
  have hadd := addable_of_check (Or.inr (Or.inr rfl)) ((Bool.and_eq_true _ _).mp hcheck₃.1).1
  have hself : ∀ txin ∈ (linkEntry thirdLink).tx.vin, txin.prevout.hash ≠ (linkEntry thirdLink).tx.hash :=
    noSelfSpend chain_acyclic hadd.known
  obtain ⟨pool', e, hrun', -, htx, hadded⟩ :=
    hacc₂.toBooked.addUnchecked hadd.fresh hadd.new hself hadd.free (hadd.isAncestorSet hacc₂.linked)
  obtain rfl : pool' = pool := Option.some.inj (hrun'.symm.trans hrun)
  refine ⟨pool₀, pool₁, pool₂, pool', hrun₀, hrun₁, hrun₂, hrun, hcheck₃.2, hacc₂, readded_empty_iff.mp hinv.readded, e,
    htx, hadded, ?_, ?_⟩
  · rw [htx]
    exact hadd.isAncestorSet hacc₂.linked
  · rw [htx]
    exact hadd.new

section Raised

variable {pool₂ pool : CTxMemPool cSHA256} {e : CTxMemPoolEntry cSHA256} {index : AncestorScore pool}

lemma isChain_raised (hraised : raisedPair pool₂ = true) (hacc₂ : Accounting pool₂) (htx : e.tx = thirdLink)
    (hadded : Added pool₂ pool e {firstLink.hash, secondLink.hash})
    (hset : IsAncestorSet pool₂ e.tx {firstLink.hash, secondLink.hash}) (hnew : e.tx.hash ∉ pool₂.mapTx) :
    IsChain pool firstLink.hash secondLink.hash thirdLink.hash := by
  obtain ⟨hkeys, hfirst, hsecond⟩ := of_decide_eq_true ((Bool.and_eq_true _ _).mp hraised).1
  have hne : thirdLink.hash ≠ firstLink.hash ∧ thirdLink.hash ≠ secondLink.hash := by decide +kernel
  have hself : ∀ it ∈ pool₂.mapTx, pool₂.ancestors it = insert it (pool₂.linkedAncestors it) := by
    intro it hit
    rw [hacc₂.linked.linkedAncestors_eq hit]
    exact (Finset.insert_erase (hacc₂.linked.dag.mem_above_self (mem_keys.mpr hit))).symm
  have hmem : firstLink.hash ∈ pool₂.mapTx ∧ secondLink.hash ∈ pool₂.mapTx := by
    rw [← Finmap.mem_keys, ← Finmap.mem_keys, hkeys]
    simp
  have hnewest := hadded.ancestors_new hacc₂.linked hnew hset
  rw [htx] at hnewest
  refine ⟨?_, ?_, ?_, ?_, by decide +kernel, hne⟩
  · rw [hadded.keys, hkeys, htx]
    ext x
    simp only [Finset.mem_insert, Finset.mem_singleton]
    tauto
  · rw [hadded.ancestors_old hacc₂.linked hnew (htx ▸ hne.1.symm), hself _ hmem.1, hfirst]
    rfl
  · rw [hadded.ancestors_old hacc₂.linked hnew (htx ▸ hne.2.symm), hself _ hmem.2, hsecond]
    exact Finset.pair_comm _ _
  · rw [hnewest]
    ext x
    simp only [Finset.mem_insert, Finset.mem_singleton]
    tauto

lemma valueAt_raised (hraised : raisedPair pool₂ = true) (hadded : Added pool₂ pool e {firstLink.hash, secondLink.hash})
    (hnew : e.tx.hash ∉ pool₂.mapTx) {it : Uint256} (hit : it ∈ [firstLink.hash, secondLink.hash]) :
    packageShare pool it = (573, if it = secondLink.hash then 1500 else 1000, 0) ∧
      pool.valueAt (·.feeDelta) it = (if it = secondLink.hash then 500 else 0) ∧
      ∀ e, pool.mapTx.lookup it = some e → isFinalTx e.tx.toCMutableTransaction 1 0 = true := by
  obtain ⟨hpair, hvalues⟩ := (Bool.and_eq_true _ _).mp hraised
  obtain ⟨hvalues, hfinal⟩ := (Bool.and_eq_true _ _).mp (all_eq_true.mp hvalues it hit)
  obtain ⟨hsize, hsigops, hfee, hdelta⟩ := of_decide_eq_true hvalues
  have hmem : it ∈ pool₂.mapTx := by
    rw [← Finmap.mem_keys, (of_decide_eq_true hpair).1]
    simpa using hit
  have hmodified : pool.valueAt (·.getModifiedFee) it = pool.valueAt (·.nFee) it + pool.valueAt (·.feeDelta) it :=
    valueAt_getModifiedFee it
  refine ⟨?_, ?_, ?_⟩
  · rw [packageShare, hmodified, hadded.valueAt hnew (fun _ => rfl) (fun _ _ _ => rfl) hmem, hsize,
      hadded.valueAt hnew (fun _ => rfl) (fun _ _ _ => rfl) hmem, hfee,
      hadded.valueAt hnew (fun _ => rfl) (fun _ _ _ => rfl) hmem, hdelta,
      hadded.valueAt hnew (fun _ => rfl) (fun _ _ _ => rfl) hmem, hsigops]
    split_ifs
    · rfl
    · rfl
  · rw [hadded.valueAt hnew (fun _ => rfl) (fun _ _ _ => rfl) hmem, hdelta]
  · intro e' he'
    have hne : it ≠ e.tx.hash := fun heq => hnew (heq ▸ hmem)
    have hcore := hadded.entries it hne
    unfold coreAt at hcore
    rw [he', Option.map_some] at hcore
    obtain ⟨ecore, hecore, hshift⟩ := Option.map_eq_some_iff.mp hcore.symm
    obtain ⟨e₀, he₀, rfl⟩ := Option.map_eq_some_iff.mp hecore
    rw [he₀, Option.all_some] at hfinal
    have htx : e₀.tx = e'.tx := congrArg (·.tx) hshift
    rwa [← htx]

lemma accepted_raised (hraised : raisedPair pool₂ = true) (hadded : Added pool₂ pool e {firstLink.hash, secondLink.hash})
    (hnew : e.tx.hash ∉ pool₂.mapTx) (hacc : Accounting pool)
    (hchain : IsChain pool firstLink.hash secondLink.hash thirdLink.hash) :
    Accepted pool freeSettings (chainStart pool index firstLink.hash thirdLink.hash)
      (candidateOf secondLink.hash false (modifiedEntry pool secondLink.hash)) := by
  have hmem : secondLink.hash ∈ pool.mapTx := mem_keys.mp (by rw [hchain.keys]; simp)
  have hne : firstLink.hash ∉ ({secondLink.hash} : SetEntries) := by decide +kernel
  have htotals := totals_modifiedEntry hacc hmem
  rw [hchain.second, Finset.sum_insert hne, Finset.sum_singleton,
    (valueAt_raised hraised hadded hnew (mem_cons_self)).1,
    (valueAt_raised hraised hadded hnew (mem_cons_of_mem _ mem_cons_self)).1, if_pos rfl,
    if_neg (by simpa using hne)] at htotals
  obtain ⟨hsize, hfees, hsigops⟩ :
      (modifiedEntry pool secondLink.hash).nSizeWithAncestors = 1146 ∧
      (modifiedEntry pool secondLink.hash).nModFeesWithAncestors = 2500 ∧
      (modifiedEntry pool secondLink.hash).nSigOpCostWithAncestors = 0 := by
    simpa [totals] using htotals
  refine ⟨?_, ?_, ?_⟩
  · change ¬ (modifiedEntry pool secondLink.hash).nModFeesWithAncestors <
      (⟨0⟩ : CFeeRate).getFee (modifiedEntry pool secondLink.hash).nSizeWithAncestors
    rw [hfees, getFee_zero]
    decide
  · change testPackage freeSettings resetBlock (modifiedEntry pool secondLink.hash).nSizeWithAncestors
      (modifiedEntry pool secondLink.hash).nSigOpCostWithAncestors = true
    rw [hsize, hsigops]
    decide
  · apply testTransactionsLoop_of_final rfl (by decide)
    intro it hit
    have hpackage : packageOf pool (chainStart pool index firstLink.hash thirdLink.hash) secondLink.hash =
        {firstLink.hash, secondLink.hash} :=
      (packageOf_eq hacc.linked hmem (Finset.notMem_empty _)).trans (Finset.sdiff_empty.trans hchain.second)
    have hit := SetEntries.mem_inOrder.mp hit
    change it ∈ packageOf pool (chainStart pool index firstLink.hash thirdLink.hash) secondLink.hash at hit
    rw [hpackage] at hit
    exact (valueAt_raised hraised hadded hnew (by simpa using hit)).2.2

end Raised

lemma mem_raisedOrder {pool : CTxMemPool cSHA256} (h : IsChain pool firstLink.hash secondLink.hash thirdLink.hash)
    (it : Uint256) : it ∈ [secondLink.hash, thirdLink.hash, firstLink.hash] ↔ it ∈ pool.mapTx := by
  rw [← Finmap.mem_keys, h.keys]
  simp only [mem_cons, not_mem_nil, or_false, Finset.mem_insert, Finset.mem_singleton]
  tauto

/-- The first package of the chain. -/
theorem packageTotals_exact_of_agree_raisedChain : ∃ pool₀ pool₁ pool₂ pool : CTxMemPool cSHA256,
    CTxMemPool.empty.prioritiseTransaction secondLink.hash 500 = some pool₀ ∧
    pool₀.addUnchecked (linkEntry firstLink) ∅ = some pool₁ ∧
    pool₁.addUnchecked (linkEntry secondLink) {firstLink.hash} = some pool₂ ∧
    pool₂.addUnchecked (linkEntry thirdLink) {firstLink.hash, secondLink.hash} = some pool ∧
    ∃ index : AncestorScore pool, index.mapTx = [secondLink.hash, thirdLink.hash, firstLink.hash] ∧
      (∀ c t, staleNext (selectionStart pool index resetBlock) = false →
        chooseEntry pool index (selectionStart pool index resetBlock) = some (c, t) →
          TotalsExact pool t.block.inBlock c) ∧
      ∀ t, addPackageStep pool freeSettings index (selectionStart pool index resetBlock) = .running t →
        (ModifiedExact pool t ↔ StepAgrees pool freeSettings index (selectionStart pool index resetBlock)) := by
  obtain ⟨pool₀, pool₁, pool₂, pool, hrun₀, hrun₁, hrun₂, hrun, hraised, hacc₂, hacc, e, htx, hadded, hset, hnew⟩ :=
    exists_raisedChain
  refine ⟨pool₀, pool₁, pool₂, pool, hrun₀, hrun₁, hrun₂, hrun,
    listedScore pool _ (mem_raisedOrder (isChain_raised hraised hacc₂ htx hadded hset hnew)) (by decide +kernel), rfl, ?_⟩
  exact packageTotals_exact_of_agree pool hacc freeSettings _ Relation.ReflTransGen.refl

/-- Both ancestors of the last transaction enter the block together; the fee delta of the second one stays in the
package fees of the last one. -/
theorem not_packageTotals_exact : ∃ pool₀ pool₁ pool₂ pool : CTxMemPool cSHA256,
    CTxMemPool.empty.prioritiseTransaction secondLink.hash 500 = some pool₀ ∧
    pool₀.addUnchecked (linkEntry firstLink) ∅ = some pool₁ ∧
    pool₁.addUnchecked (linkEntry secondLink) {firstLink.hash} = some pool₂ ∧
    pool₂.addUnchecked (linkEntry thirdLink) {firstLink.hash, secondLink.hash} = some pool ∧ Accounting pool ∧
    ∃ index : AncestorScore pool, index.mapTx = [secondLink.hash, thirdLink.hash, firstLink.hash] ∧
      ∃ s c t, Relation.ReflTransGen (fun s t => addPackageStep pool freeSettings index s = .running t)
          (selectionStart pool index resetBlock) s ∧ staleNext s = false ∧
        chooseEntry pool index s = some (c, t) ∧ ¬ TotalsExact pool t.block.inBlock c := by
  obtain ⟨pool₀, pool₁, pool₂, pool, hrun₀, hrun₁, hrun₂, hrun, hraised, hacc₂, hacc, e, htx, hadded, hset, hnew⟩ :=
    exists_raisedChain
  have hchain := isChain_raised hraised hacc₂ htx hadded hset hnew
  have hdelta : pool.valueAt (·.feeDelta) secondLink.hash ≠ 0 := by
    rw [(valueAt_raised hraised hadded hnew (mem_cons_of_mem _ mem_cons_self)).2.1, if_pos rfl]
    decide
  refine ⟨pool₀, pool₁, pool₂, pool, hrun₀, hrun₁, hrun₂, hrun, hacc, listedScore pool _ (mem_raisedOrder hchain) (by decide +kernel),
    rfl, ?_⟩
  exact hchain.exists_inexact hacc rfl (accepted_raised hraised hadded hnew hacc hchain) hdelta

end Chain

end BlockAssembler

end MutableBitcoin
