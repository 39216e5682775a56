import MutableBitcoin.MempoolInvariant

/-!
# Exact accounting of the pool

What `check` verifies: the links are the relation of spending, the counters are the totals over its
closures, and the sums over all entries agree.
-/

namespace MutableBitcoin
open Lib Finset Option

namespace CTxMemPool

variable {sha256 : Bytes → Uint256}

/-- The entry spends from another entry. -/
def Spends (pool : CTxMemPool sha256) (child parent : Uint256) : Prop :=
  parent ∈ pool.mapTx ∧ ∃ e, pool.coreAt child = some e ∧ ∃ txin ∈ e.tx.vin, txin.prevout.hash = parent

/-- Links, counters, deltas and sums agree. -/
structure Booked (pool : CTxMemPool sha256) : Prop where
  linked : Linked pool
  next : NextExact pool
  exact : Exact pool
  deltas : ∀ it e, pool.coreAt it = some e → e.feeDelta = (pool.mapDeltas.lookup it).getD 0
  totalTxSize : pool.totalTxSize = ∑ it ∈ pool.mapTx.keys, pool.valueAt (·.getTxSize) it
  usage : pool.cachedInnerUsage - pool.linkUsage = ∑ it ∈ pool.mapTx.keys, pool.valueAt (·.nUsageSize) it

/-- What `check` verifies. -/
structure Accounting (pool : CTxMemPool sha256) : Prop extends Booked pool where
  parents : ∀ child parent, parent ∈ pool.getMemPoolParents child ↔ pool.Spends child parent

lemma Booked.consistent {pool : CTxMemPool sha256} (h : Booked pool) : Consistent pool :=
  ⟨h.linked, h.next, h.exact.covered⟩

lemma Booked.descendantState_pos {pool : CTxMemPool sha256} (h : Booked pool) {it : Uint256}
    {e : CTxMemPoolEntry sha256} (he : pool.coreAt it = some e) :
    0 < e.descendantState.1 ∧ 0 < e.descendantState.2.2 := by
  have hpos := h.exact.descendants.room (fun _ => ⟨le_rfl, le_rfl⟩) h.linked he (empty_subset _)
  rwa [sum_empty, sub_zero] at hpos

lemma Booked.ancestorState_pos {pool : CTxMemPool sha256} (h : Booked pool) {it : Uint256}
    {e : CTxMemPoolEntry sha256} (he : pool.coreAt it = some e) :
    0 < e.ancestorState.1 ∧ 0 < e.ancestorState.2.2.1 ∧ 0 ≤ e.ancestorState.2.2.2 := by
  have hpos := h.exact.ancestors.room (fun _ => ⟨le_rfl, le_rfl, le_rfl⟩) h.linked he (empty_subset _)
  rwa [sum_empty, sub_zero] at hpos

lemma booked_empty : Booked (CTxMemPool.empty : CTxMemPool sha256) := by
  refine ⟨linked_empty, consistent_empty.next, exact_empty, ?_, rfl, rfl⟩
  intro it e he
  cases he

lemma accounting_empty : Accounting (CTxMemPool.empty : CTxMemPool sha256) := by
  refine ⟨booked_empty, ?_⟩
  intro child parent
  constructor
  · intro h
    exact absurd h (notMem_empty parent)
  · rintro ⟨hmem, -⟩
    exact absurd hmem Finmap.notMem_empty

section Removed

variable {pool pool' : CTxMemPool sha256} {stage : SetEntries} {updateDescendants : Bool}

lemma Removed.valueAt (h : Removed pool pool' stage updateDescendants) {f : CTxMemPoolEntry sha256 → ℤ}
    (hf : ∀ e, f e.core = f e) (hf' : ∀ e d a, f (e.shift d a) = f e) {it : Uint256} (hit : it ∉ stage)
    (hmem : it ∈ pool.mapTx) : pool'.valueAt f it = pool.valueAt f it := by
  obtain ⟨e, he⟩ := CTxMemPool.exists_coreAt hmem
  rw [valueAt_eq_of_core hf (h.coreAt hit he), hf', valueAt_eq_of_core hf he]

lemma Removed.sum_valueAt (h : Removed pool pool' stage updateDescendants) (hstage : stage ⊆ pool.mapTx.keys)
    {f : CTxMemPoolEntry sha256 → ℤ} (hf : ∀ e, f e.core = f e) (hf' : ∀ e d a, f (e.shift d a) = f e) :
    ∑ it ∈ pool'.mapTx.keys, pool'.valueAt f it =
      ∑ it ∈ pool.mapTx.keys, pool.valueAt f it - ∑ it ∈ stage, pool.valueAt f it := by
  have hsame : ∑ it ∈ pool.mapTx.keys \ stage, pool'.valueAt f it =
      ∑ it ∈ pool.mapTx.keys \ stage, pool.valueAt f it := by
    apply sum_congr rfl
    intro it hit
    obtain ⟨hkey, hnot⟩ := mem_sdiff.mp hit
    exact h.valueAt hf hf' hnot (Finmap.mem_keys.mp hkey)
  rw [h.keys, hsame, ← sum_sdiff hstage, add_sub_cancel_right]

lemma Removed.booked (hbooked : Booked pool) (hstage : stage ⊆ pool.mapTx.keys)
    (hkeeps : KeepsAncestors pool stage updateDescendants)
    (havoid : Avoidable stage pool.getMemPoolChildren pool'.getMemPoolChildren)
    (h : Removed pool pool' stage updateDescendants) : Booked pool' := by
  refine ⟨h.linked hbooked.linked, h.nextExact hbooked.linked hbooked.next, h.exact hkeeps havoid hbooked.exact,
    ?_, ?_, ?_⟩
  · intro it e' he'
    obtain ⟨-, e, he, rfl⟩ := h.exists_coreAt he'
    rw [h.mapDeltas]
    exact hbooked.deltas it e he
  · rw [h.totalTxSize, hbooked.totalTxSize, h.sum_valueAt hstage (fun _ => rfl) (fun _ _ _ => rfl)]
  · rw [h.balance, hbooked.usage, h.sum_valueAt hstage (fun _ => rfl) (fun _ _ _ => rfl)]

lemma Removed.spends_iff (h : Removed pool pool' stage updateDescendants) {child parent : Uint256} :
    pool'.Spends child parent ↔ pool.Spends child parent ∧ child ∉ stage ∧ parent ∉ stage := by
  constructor
  · rintro ⟨hmem, e', he', hspends⟩
    obtain ⟨hchild, e, he, rfl⟩ := h.exists_coreAt he'
    obtain ⟨hmem, hparent⟩ := h.mem_iff.mp hmem
    exact ⟨⟨hmem, e, he, hspends⟩, hchild, hparent⟩
  · rintro ⟨⟨hmem, e, he, hspends⟩, hchild, hparent⟩
    exact ⟨h.mem_iff.mpr ⟨hmem, hparent⟩, _, h.coreAt hchild he, hspends⟩

lemma Removed.accounting (hacc : Accounting pool) (hstage : stage ⊆ pool.mapTx.keys)
    (hkeeps : KeepsAncestors pool stage updateDescendants)
    (havoid : Avoidable stage pool.getMemPoolChildren pool'.getMemPoolChildren)
    (h : Removed pool pool' stage updateDescendants) : Accounting pool' := by
  refine ⟨h.booked hacc.toBooked hstage hkeeps havoid, ?_⟩
  intro child parent
  rw [h.links.mem_parents, hacc.parents, h.spends_iff]

lemma Accounting.reaches_iff (h : Accounting pool) {x y : Uint256} :
    Reaches pool.getMemPoolChildren x y ↔
      Relation.ReflTransGen (fun parent child => pool.Spends child parent) x y := by
  have hstep : ∀ parent child, child ∈ pool.getMemPoolChildren parent ↔ pool.Spends child parent := by
    intro parent child
    rw [← h.parents, ← h.linked.dag.symm]
  simp only [Reaches, hstep]

lemma Accounting.removeStaged (hacc : Accounting pool) {stage : SetEntries} (hstage : ∀ it ∈ stage, it ∈ pool.mapTx)
    (hclosed : ∀ it ∈ stage, ∀ child, pool.Spends child it → child ∈ stage) (updateDescendants : Bool) :
    ∃ pool', pool.removeStaged stage updateDescendants = some pool' ∧ Accounting pool' := by
  have hsub : stage ⊆ pool.mapTx.keys := fun it hit => Finmap.mem_keys.mpr (hstage it hit)
  have hchildren : ∀ x ∈ stage, pool.getMemPoolChildren x ⊆ stage := by
    intro x hx y hy
    rw [← hacc.linked.dag.symm, hacc.parents] at hy
    exact hclosed x hx y hy
  obtain ⟨pool', hpool', -, hremoved⟩ := hacc.consistent.removeStaged hsub
    (show KeepsAncestors pool stage updateDescendants from Or.inr hchildren)
  exact ⟨pool', hpool', hremoved.accounting hacc hsub (Or.inr hchildren) (avoidable_of_closed hremoved.links hchildren)⟩

lemma ClosedRemoval.accounting (hacc : Accounting pool) (h : ClosedRemoval pool pool') : Accounting pool' := by
  obtain ⟨mapDeltas, stage, hstage, hclosed, hdeltas, hremoved⟩ := h
  have havoid := avoidable_of_closed hremoved.links hclosed
  have hkeeps : KeepsAncestors { pool with mapDeltas := mapDeltas } stage false := Or.inr hclosed
  refine ⟨⟨hremoved.linked (hacc.consistent.withDeltas mapDeltas).linked,
    hremoved.nextExact (hacc.consistent.withDeltas mapDeltas).linked hacc.next,
    hremoved.exact hkeeps havoid ⟨hacc.exact.descendants, hacc.exact.ancestors⟩, ?_, ?_, ?_⟩, ?_⟩
  · intro it e' he'
    obtain ⟨hit, e, he, rfl⟩ := hremoved.exists_coreAt he'
    have he : pool.coreAt it = some e := he
    rw [hremoved.mapDeltas]
    dsimp only
    rw [hdeltas it (mem_of_coreAt he) hit]
    exact hacc.deltas it e he
  · rw [hremoved.totalTxSize, hremoved.sum_valueAt hstage (fun _ => rfl) (fun _ _ _ => rfl)]
    exact congrArg (· - _) hacc.totalTxSize
  · rw [hremoved.balance, hremoved.sum_valueAt hstage (fun _ => rfl) (fun _ _ _ => rfl)]
    exact congrArg (· - _) hacc.usage
  · intro child parent
    rw [hremoved.links.mem_parents, hremoved.spends_iff]
    exact and_congr_left' (hacc.parents child parent)

lemma accounting_of_closedRemovals (hacc : Accounting pool) (h : Relation.ReflTransGen ClosedRemoval pool pool') :
    Accounting pool' := by
  induction h with
  | refl => exact hacc
  | tail _ hstep ih => exact hstep.accounting ih

lemma Removed.accounting_root {r : Uint256} (hacc : Accounting pool) (hr : r ∈ pool.mapTx)
    (hroot : pool.getMemPoolParents r = ∅) (h : Removed pool pool' {r} true) : Accounting pool' :=
  h.accounting hacc (singleton_subset_iff.mpr (Finmap.mem_keys.mpr hr)) (Or.inl rfl)
    (avoidable_of_root hacc.linked.dag h.links hroot)

end Removed

section Block

variable {pool : CTxMemPool sha256}

/-- A transaction of the list comes behind its parents. -/
def ParentsFirst (pool : CTxMemPool sha256) (vtx : List (CTransaction sha256)) : Prop :=
  ∀ front tx behind, vtx = front ++ tx :: behind → tx.hash ∈ pool.mapTx →
    ∀ parent ∈ pool.getMemPoolParents tx.hash, ∃ tx' ∈ front, tx'.hash = parent

/-- Entries and links only go away. -/
structure Shrunk (pool pool' : CTxMemPool sha256) : Prop where
  mem : ∀ {it}, it ∈ pool'.mapTx → it ∈ pool.mapTx
  parents : ∀ it, pool'.getMemPoolParents it ⊆ pool.getMemPoolParents it

lemma Shrunk.refl (pool : CTxMemPool sha256) : Shrunk pool pool := ⟨fun h => h, fun _ => le_rfl⟩

lemma Shrunk.trans {pool' pool'' : CTxMemPool sha256} (h : Shrunk pool pool') (h' : Shrunk pool' pool'') :
    Shrunk pool pool'' :=
  ⟨fun hit => h.mem (h'.mem hit), fun it => (h'.parents it).trans (h.parents it)⟩

lemma Removed.shrunk {pool' : CTxMemPool sha256} {stage : SetEntries} {updateDescendants : Bool}
    (h : Removed pool pool' stage updateDescendants) : Shrunk pool pool' :=
  ⟨fun hit => (h.mem_iff.mp hit).1, fun _ _ hp => (h.links.mem_parents.mp hp).1⟩

lemma shrunk_of_closedRemovals {pool' : CTxMemPool sha256} (h : Relation.ReflTransGen ClosedRemoval pool pool') :
    Shrunk pool pool' := by
  induction h with
  | refl => exact Shrunk.refl pool
  | tail _ hstep ih =>
    obtain ⟨mapDeltas, stage, -, -, -, hremoved⟩ := hstep
    exact ih.trans ⟨hremoved.shrunk.mem, hremoved.shrunk.parents⟩

lemma Accounting.removeForBlockTx (hacc : Accounting pool) {tx : CTransaction sha256}
    (hroot : pool.getMemPoolParents tx.hash = ∅) :
    ∃ pool', pool.removeForBlockTx tx = some pool' ∧ Accounting pool' ∧ Shrunk pool pool' ∧
      tx.hash ∉ pool'.mapTx := by
  obtain ⟨mid, pool', hpool', -, hremoved, hsame, hreach⟩ := hacc.consistent.removeForBlockTx tx
  have hshrunk := shrunk_of_closedRemovals hreach
  by_cases hmem : tx.hash ∈ pool.mapTx
  · have hstage := hremoved hmem
    refine ⟨pool', hpool', accounting_of_closedRemovals (hstage.accounting_root hacc hmem hroot) hreach,
      hstage.shrunk.trans hshrunk, ?_⟩
    intro hmem'
    exact (hstage.mem_iff.mp (hshrunk.mem hmem')).2 (mem_singleton_self _)
  · obtain rfl := hsame hmem
    exact ⟨pool', hpool', accounting_of_closedRemovals hacc hreach, hshrunk, fun hmem' => hmem (hshrunk.mem hmem')⟩

lemma Accounting.removeForBlock (hacc : Accounting pool) {vtx : List (CTransaction sha256)}
    (hfirst : ParentsFirst pool vtx) : ∃ pool', pool.removeForBlock vtx = some pool' ∧ Accounting pool' := by
  -- What stands before in the block is gone.
  have hloop : ∀ (behind front : List (CTransaction sha256)) (cur : CTxMemPool sha256), vtx = front ++ behind →
      Accounting cur → Shrunk pool cur → (∀ tx ∈ front, tx.hash ∉ cur.mapTx) →
      ∃ pool', behind.foldlM (fun pool tx => pool.removeForBlockTx tx) cur = some pool' ∧ Accounting pool' := by
    intro behind
    induction behind with
    | nil => exact fun _ cur _ hcur _ _ => ⟨cur, rfl, hcur⟩
    | cons tx behind ih =>
      intro front cur hvtx hcur hshrunk hgone
      have hroot : cur.getMemPoolParents tx.hash = ∅ := by
        apply eq_empty_of_forall_notMem
        intro parent hparent
        obtain ⟨hparentMem, hmem⟩ := hcur.linked.dag.sub (hcur.linked.dag.symm.mp hparent)
        obtain ⟨tx', htx', rfl⟩ := hfirst front tx behind hvtx (hshrunk.mem (Finmap.mem_keys.mp hmem)) parent
          (hshrunk.parents _ hparent)
        exact hgone tx' htx' (Finmap.mem_keys.mp hparentMem)
      obtain ⟨next, hnext, hnextAcc, hnextShrunk, hnextGone⟩ := hcur.removeForBlockTx hroot
      obtain ⟨pool', hpool', hacc'⟩ := ih (front ++ [tx]) next (by rw [hvtx, List.append_assoc]; rfl) hnextAcc
        (hshrunk.trans hnextShrunk) (by
          intro tx' htx'
          obtain htx' | htx' := List.mem_append.mp htx'
          · exact fun hmem => hgone tx' htx' (hnextShrunk.mem hmem)
          · rw [List.mem_singleton.mp htx']
            exact hnextGone)
      refine ⟨pool', ?_, hacc'⟩
      rw [List.foldlM_cons, hnext]
      exact hpool'
  exact hloop vtx [] pool rfl hacc (Shrunk.refl pool) (fun tx htx => nomatch htx)

end Block

section Added

variable {pool pool' : CTxMemPool sha256} {e : CTxMemPoolEntry sha256} {setAncestors : SetEntries}

lemma Added.valueAt (h : Added pool pool' e setAncestors) (hnew : e.tx.hash ∉ pool.mapTx)
    {f : CTxMemPoolEntry sha256 → ℤ} (hf : ∀ e, f e.core = f e) (hf' : ∀ e d a, f (e.shift d a) = f e) {it : Uint256}
    (hit : it ∈ pool.mapTx) : pool'.valueAt f it = pool.valueAt f it := by
  have hne : it ≠ e.tx.hash := fun heq => hnew (heq ▸ hit)
  obtain ⟨e₀, he₀⟩ := exists_coreAt hit
  rw [valueAt_eq_of_core hf (h.coreAt hne he₀), hf', valueAt_eq_of_core hf he₀]

lemma Added.sum_valueAt (h : Added pool pool' e setAncestors) (hnew : e.tx.hash ∉ pool.mapTx)
    {f : CTxMemPoolEntry sha256 → ℤ} (hf : ∀ e, f e.core = f e) (hf' : ∀ e d a, f (e.shift d a) = f e) :
    ∑ it ∈ pool'.mapTx.keys, pool'.valueAt f it = ∑ it ∈ pool.mapTx.keys, pool.valueAt f it + f e := by
  have hsame : ∑ it ∈ pool.mapTx.keys, pool'.valueAt f it = ∑ it ∈ pool.mapTx.keys, pool.valueAt f it :=
    sum_congr rfl fun it hit => h.valueAt hnew hf hf' (Finmap.mem_keys.mp hit)
  rw [h.keys, sum_insert (fun hmem => hnew (Finmap.mem_keys.mp hmem)), hsame,
    valueAt_eq_of_core hf h.entry, hf', hf, add_comm]

lemma Added.booked (hbooked : Booked pool) (hstateD : e.descendantState = e.descendantShare)
    (hstateA : e.ancestorState = e.ancestorShare) (hdelta : e.feeDelta = (pool.mapDeltas.lookup e.tx.hash).getD 0)
    (hnew : e.tx.hash ∉ pool.mapTx) (hfree : ∀ txin ∈ e.tx.vin, pool.mapNextTx.lookup txin.prevout = none)
    (hset : IsAncestorSet pool e.tx setAncestors) (h : Added pool pool' e setAncestors) : Booked pool' := by
  refine ⟨h.linked hbooked.linked hnew, h.nextExact hbooked.next hnew hfree,
    h.exact hbooked.linked hstateD hstateA hnew hset hbooked.exact, ?_, ?_, ?_⟩
  · intro it e' he'
    rw [h.mapDeltas]
    by_cases hit : it = e.tx.hash
    · rw [hit, h.entry, Option.some.injEq] at he'
      rw [← he', hit]
      exact hdelta
    · rw [h.entries it hit, map_eq_some_iff] at he'
      obtain ⟨e₀, he₀, rfl⟩ := he'
      exact hbooked.deltas it e₀ he₀
  · rw [h.totalTxSize, hbooked.totalTxSize, h.sum_valueAt hnew (fun _ => rfl) (fun _ _ _ => rfl)]
  · rw [h.balance, hbooked.usage, h.sum_valueAt hnew (fun _ => rfl) (fun _ _ _ => rfl)]

lemma Added.spends_iff (hnew : e.tx.hash ∉ pool.mapTx) (h : Added pool pool' e setAncestors) {child parent : Uint256} (hparent : parent ≠ e.tx.hash) :
    pool'.Spends child parent ↔ pool.Spends child parent ∨ child = e.tx.hash ∧ parent ∈ pool.parentsOf e.tx := by
  have hmem : parent ∈ pool'.mapTx ↔ parent ∈ pool.mapTx := by
    rw [← Finmap.mem_keys, h.keys, mem_insert, Finmap.mem_keys]
    simp [hparent]
  by_cases hchild : child = e.tx.hash
  · have hnot : ¬ pool.Spends e.tx.hash parent := by
      rintro ⟨-, e₀, he₀, -⟩
      exact hnew (mem_of_coreAt he₀)
    rw [hchild]
    simp only [hnot, false_or, true_and]
    rw [mem_parentsOf, Spends, hmem, h.entry, and_comm]
    simp only [Option.some.injEq, exists_eq_left']
    rfl
  · simp only [hchild, false_and, or_false]
    rw [Spends, Spends, hmem, h.entries child hchild]
    simp only [map_eq_some_iff]
    constructor
    · rintro ⟨hp, e', ⟨e₀, he₀, rfl⟩, hspends⟩
      exact ⟨hp, e₀, he₀, hspends⟩
    · rintro ⟨hp, e₀, he₀, hspends⟩
      exact ⟨hp, _, ⟨e₀, he₀, rfl⟩, hspends⟩

lemma Added.mem_parents_iff (hlinked : Linked pool) (hnew : e.tx.hash ∉ pool.mapTx)
    (h : Added pool pool' e setAncestors) {child parent : Uint256} :
    parent ∈ pool'.getMemPoolParents child ↔
      parent ∈ pool.getMemPoolParents child ∨ child = e.tx.hash ∧ parent ∈ pool.parentsOf e.tx := by
  by_cases hchild : child = e.tx.hash
  · have hnot : parent ∉ pool.getMemPoolParents child := by
      intro hmem
      exact hnew (hchild ▸ Finmap.mem_keys.mp (hlinked.dag.sub (hlinked.dag.symm.mp hmem)).2)
    rw [hchild, h.links.parents_leaf, ← hchild]
    simp [hnot]
  · rw [h.links.parents_eq child hchild]
    simp [hchild]

lemma Added.accounting (hacc : Accounting pool) (hstateD : e.descendantState = e.descendantShare)
    (hstateA : e.ancestorState = e.ancestorShare) (hdelta : e.feeDelta = (pool.mapDeltas.lookup e.tx.hash).getD 0)
    (hnew : e.tx.hash ∉ pool.mapTx) (hself : ∀ txin ∈ e.tx.vin, txin.prevout.hash ≠ e.tx.hash)
    (hfree : ∀ txin ∈ e.tx.vin, pool.mapNextTx.lookup txin.prevout = none)
    (hchildren : ∀ it e', pool.coreAt it = some e' → ∀ txin ∈ e'.tx.vin, txin.prevout.hash ≠ e.tx.hash)
    (hset : IsAncestorSet pool e.tx setAncestors) (h : Added pool pool' e setAncestors) : Accounting pool' := by
  refine ⟨h.booked hacc.toBooked hstateD hstateA hdelta hnew hfree hset, ?_⟩
  intro child parent
  rw [h.mem_parents_iff hacc.linked hnew]
  by_cases hparent : parent = e.tx.hash
  · constructor
    · rintro (hmem | ⟨-, hmem⟩)
      · exact absurd (hparent ▸ Finmap.mem_keys.mp (hacc.linked.parents_sub _ hmem)) hnew
      · exact absurd (hparent ▸ Finmap.mem_keys.mp (parentsOf_sub _ hmem)) hnew
    · rintro ⟨-, e', he', txin, htxin, heq⟩
      rw [hparent] at heq
      by_cases hchild : child = e.tx.hash
      · rw [hchild, h.entry, Option.some.injEq] at he'
        subst he'
        exact absurd heq (hself txin htxin)
      · rw [h.entries child hchild, map_eq_some_iff] at he'
        obtain ⟨e₀, he₀, rfl⟩ := he'
        exact absurd heq (hchildren child e₀ he₀ txin htxin)
  · rw [h.spends_iff hnew hparent, hacc.parents]

lemma Booked.addUnchecked {entry : CTxMemPoolEntry sha256} (hbooked : Booked pool) (hfresh : entry.Fresh)
    (hnew : entry.tx.hash ∉ pool.mapTx) (hself : ∀ txin ∈ entry.tx.vin, txin.prevout.hash ≠ entry.tx.hash)
    (hfree : ∀ txin ∈ entry.tx.vin, pool.mapNextTx.lookup txin.prevout = none)
    (hset : IsAncestorSet pool entry.tx setAncestors) :
    ∃ pool' e, pool.addUnchecked entry setAncestors = some pool' ∧ Booked pool' ∧ e.tx = entry.tx ∧
      Added pool pool' e setAncestors := by
  obtain ⟨pool', hpool', -, hadded⟩ := hbooked.consistent.addUnchecked hfresh hnew hself hfree hset
  exact ⟨pool', entry.withDelta (pool.mapDeltas.lookup entry.tx.hash), hpool', hadded.booked hbooked (hfresh.descendantState_withDelta _)
    (hfresh.ancestorState_withDelta _) rfl hnew hfree hset, rfl, hadded⟩

lemma Accounting.addUnchecked {entry : CTxMemPoolEntry sha256} (hacc : Accounting pool) (hfresh : entry.Fresh)
    (hnew : entry.tx.hash ∉ pool.mapTx) (hself : ∀ txin ∈ entry.tx.vin, txin.prevout.hash ≠ entry.tx.hash)
    (hfree : ∀ txin ∈ entry.tx.vin, pool.mapNextTx.lookup txin.prevout = none)
    (hchildren : ∀ it e, pool.coreAt it = some e → ∀ txin ∈ e.tx.vin, txin.prevout.hash ≠ entry.tx.hash)
    (hset : IsAncestorSet pool entry.tx setAncestors) :
    ∃ pool', pool.addUnchecked entry setAncestors = some pool' ∧ Accounting pool' := by
  obtain ⟨pool', hpool', -, hadded⟩ := hacc.consistent.addUnchecked hfresh hnew hself hfree hset
  exact ⟨pool', hpool', hadded.accounting hacc (hfresh.descendantState_withDelta _)
    (hfresh.ancestorState_withDelta _) rfl hnew hself hfree hchildren hset⟩

end Added

section Prioritise

variable {pool : CTxMemPool sha256}

/-- A fee delta has been added to an entry and to what counts it. -/
structure Repriced (pool pool' : CTxMemPool sha256) (hash : Uint256) (nFeeDelta : ℤ) : Prop where
  entries : ∀ it, it ≠ hash → pool'.coreAt it = (pool.coreAt it).map
    (·.shift (if it ∈ pool.ancestors hash then (0, nFeeDelta, 0) else 0)
      (if it ∈ pool.descendants hash then (0, nFeeDelta, 0, 0) else 0))
  entry : ∃ e, pool.coreAt hash = some e ∧ pool'.coreAt hash =
    some ({ e with feeDelta := e.feeDelta + nFeeDelta }.shift (0, nFeeDelta, 0) (0, nFeeDelta, 0, 0))
  mapLinks : pool'.mapLinks = pool.mapLinks
  mapNextTx : pool'.mapNextTx = pool.mapNextTx
  mapDeltas : pool'.mapDeltas = pool.mapDeltas.insert hash ((pool.mapDeltas.lookup hash).getD 0 + nFeeDelta)
  totalTxSize : pool'.totalTxSize = pool.totalTxSize
  cachedInnerUsage : pool'.cachedInnerUsage = pool.cachedInnerUsage

lemma exists_prioritiseTransaction (hbooked : Booked pool) {hash : Uint256} (hmem : hash ∈ pool.mapTx)
    (nFeeDelta : ℤ) :
    ∃ pool', pool.prioritiseTransaction hash nFeeDelta = some pool' ∧ Repriced pool pool' hash nFeeDelta := by
  obtain ⟨e, he⟩ := isSome_iff_exists.mp (Finmap.lookup_isSome.mpr hmem)
  have hcore : pool.coreAt hash = some e.core := by
    rw [coreAt, he]
    rfl
  have hdelta : e.feeDelta = (pool.mapDeltas.lookup hash).getD 0 := hbooked.deltas hash e.core hcore
  generalize hnew : (pool.mapDeltas.lookup hash).getD 0 + nFeeDelta = delta
  -- The entry itself.
  obtain ⟨pool₁, h₁⟩ := exists_modify { pool with mapDeltas := pool.mapDeltas.insert hash delta }
    (f := fun e => some (e.updateFeeDelta delta)) (fun _ _ => rfl)
  have hmod := modified_of_modify h₁
  have hcore₁ : ∀ it, it ≠ hash → pool₁.coreAt it = pool.coreAt it := by
    intro it hit
    rw [coreAt, hmod.outside it (fun h => hit (mem_singleton.mp h))]
    rfl
  have hentry₁ : pool₁.coreAt hash =
      some ({ e.core with feeDelta := e.feeDelta + nFeeDelta }.shift (0, nFeeDelta, 0) (0, nFeeDelta, 0, 0)) := by
    have hlookup : pool₁.mapTx.lookup hash = some (e.updateFeeDelta delta) := by
      rw [hmod.inside hash (mem_singleton_self hash)]
      dsimp only
      rw [he]
      rfl
    rw [coreAt, hlookup, map_some, ← hnew, ← hdelta]
    simp [CTxMemPoolEntry.updateFeeDelta, CTxMemPoolEntry.core, CTxMemPoolEntry.shift]
  have hlinks₁ : pool₁.mapLinks = pool.mapLinks := by rw [hmod.rest]
  have hmem₁ : ∀ it, it ∈ pool₁.mapTx ↔ it ∈ pool.mapTx := by
    intro it
    rw [mem_mapTx_iff_coreAt, mem_mapTx_iff_coreAt]
    by_cases hit : it = hash
    · rw [hit, hentry₁, hcore]
      rfl
    · rw [hcore₁ it hit]
  have hkeys₁ : pool₁.mapTx.keys = pool.mapTx.keys := by
    ext it
    rw [Finmap.mem_keys, Finmap.mem_keys, hmem₁]
  have hparents₁ : pool₁.getMemPoolParents = pool.getMemPoolParents :=
    funext fun it => congrArg TxLinks.parents (linksAt_of_mapLinks hlinks₁ it)
  have hchildren₁ : pool₁.getMemPoolChildren = pool.getMemPoolChildren :=
    funext fun it => congrArg TxLinks.children (linksAt_of_mapLinks hlinks₁ it)
  have hlinked₁ : Linked pool₁ := by
    refine ⟨?_, ?_, ?_⟩
    · rw [hkeys₁, hparents₁, hchildren₁]
      exact hbooked.linked.dag
    · intro it
      rw [hlinks₁, hbooked.linked.domain, hmem₁]
    · intro it e' he'
      by_cases hit : it = hash
      · rw [hit, hentry₁, Option.some.injEq] at he'
        rw [← he', hit]
        exact hbooked.linked.ids hash e.core hcore
      · rw [hcore₁ it hit] at he'
        exact hbooked.linked.ids it e' he'
  have hclosures : pool₁.ancestors hash = pool.ancestors hash ∧ pool₁.descendants hash = pool.descendants hash := by
    unfold ancestors descendants
    rw [hkeys₁, hchildren₁]
    exact ⟨rfl, rfl⟩
  -- The ancestors.
  obtain ⟨pool₂, h₂, hlinks₂, hshift₂⟩ := exists_modifyAll_descendantState pool₁
    ((pool.ancestors hash).erase hash) (0, nFeeDelta, 0) (by
      intro it hit e' he'
      rw [hcore₁ it (ne_of_mem_erase hit)] at he'
      simpa using hbooked.descendantState_pos he')
  -- The descendants.
  obtain ⟨pool₃, h₃, hlinks₃, hshift₃⟩ := exists_modifyAll_ancestorState pool₂
    ((pool.descendants hash).erase hash) (0, nFeeDelta, 0, 0) (by
      intro it hit e' he'
      obtain ⟨e₁, he₁, rfl⟩ := hshift₂.exists_coreAt he'
      rw [hcore₁ it (ne_of_mem_erase hit)] at he₁
      simpa using hbooked.ancestorState_pos he₁)
  have hlinked₂ := hlinked₁.of_shifted hshift₂ hlinks₂
  have hdesc₂ := (descendants_of_shifted hshift₂ hlinks₂ hash).1.trans hclosures.2
  have hshift := hshift₂.trans hshift₃
  refine ⟨pool₃, ?_, ?_, ?_, (hlinks₃.trans hlinks₂).trans hlinks₁, ?_, ?_, ?_, ?_⟩
  · unfold prioritiseTransaction
    dsimp only
    rw [hnew, if_pos hmem, h₁]
    dsimp only [bind, Option.bind]
    rw [hlinked₁.linkedAncestors_eq ((hmem₁ hash).mpr hmem), hclosures.1, h₂]
    dsimp only
    rw [hlinked₂.calculateDescendants_eq ((hshift₂.mem_iff hash).mpr ((hmem₁ hash).mpr hmem)), hdesc₂]
    exact h₃
  · intro it hit
    rw [hshift.entries, hcore₁ it hit]
    simp [hit]
  · refine ⟨e.core, hcore, ?_⟩
    rw [hshift.coreAt hentry₁]
    simp
    rfl
  · rw [hshift.mapNextTx, hmod.rest]
  · rw [hshift.mapDeltas, hmod.rest, hnew]
  · rw [hshift.totalTxSize, hmod.rest]
  · have hbalance := hshift.balance
    have husage : pool₃.linkUsage = pool₁.linkUsage := by
      unfold linkUsage
      rw [hlinks₃, hlinks₂]
      exact sum_congr rfl (fun it _ => by rw [linksAt_of_mapLinks (hlinks₃.trans hlinks₂)])
    have hsame : pool₁.cachedInnerUsage = pool.cachedInnerUsage := by rw [hmod.rest]
    linarith

lemma Repriced.keys {pool' : CTxMemPool sha256} {hash : Uint256} {nFeeDelta : ℤ}
    (h : Repriced pool pool' hash nFeeDelta) : pool'.mapTx.keys = pool.mapTx.keys := by
  obtain ⟨e, he, he'⟩ := h.entry
  ext it
  rw [Finmap.mem_keys, Finmap.mem_keys, mem_mapTx_iff_coreAt, mem_mapTx_iff_coreAt]
  by_cases hit : it = hash
  · rw [hit, he, he']
    rfl
  · rw [h.entries it hit, isSome_map]

lemma Repriced.exists_coreAt {pool' : CTxMemPool sha256} {hash : Uint256} {nFeeDelta : ℤ}
    (h : Repriced pool pool' hash nFeeDelta) (hlinked : Linked pool) {it : Uint256} {e' : CTxMemPoolEntry sha256}
    (he' : pool'.coreAt it = some e') : ∃ e, pool.coreAt it = some e ∧
      e' = { e with feeDelta := e.feeDelta + if it = hash then nFeeDelta else 0 }.shift
        (if hash ∈ pool.descendants it then (0, nFeeDelta, 0) else 0)
        (if hash ∈ pool.ancestors it then (0, nFeeDelta, 0, 0) else 0) := by
  obtain ⟨e₀, he₀, he₀'⟩ := h.entry
  have hmem := mem_of_coreAt he₀
  by_cases hit : it = hash
  · subst hit
    rw [he₀', Option.some.injEq] at he'
    refine ⟨e₀, he₀, ?_⟩
    have hself := hlinked.dag.mem_below_self (Finmap.mem_keys.mpr hmem)
    have hself' := hlinked.dag.mem_above_self (Finmap.mem_keys.mpr hmem)
    rw [if_pos rfl, if_pos (show it ∈ pool.descendants it from hself), if_pos (show it ∈ pool.ancestors it from hself'),
      he']
  · rw [h.entries it hit, map_eq_some_iff] at he'
    obtain ⟨e, he, rfl⟩ := he'
    have hit' := mem_of_coreAt he
    refine ⟨e, he, ?_⟩
    rw [if_neg hit, add_zero]
    simp only [hlinked.mem_ancestors_iff hit' hmem, hlinked.mem_ancestors_iff hmem hit']

section

variable {pool' : CTxMemPool sha256} {hash : Uint256} {nFeeDelta : ℤ}

lemma Repriced.coreAt (h : Repriced pool pool' hash nFeeDelta) (hlinked : Linked pool) {it : Uint256}
    {e : CTxMemPoolEntry sha256} (he : pool.coreAt it = some e) : pool'.coreAt it =
      some ({ e with feeDelta := e.feeDelta + if it = hash then nFeeDelta else 0 }.shift
        (if hash ∈ pool.descendants it then (0, nFeeDelta, 0) else 0)
        (if hash ∈ pool.ancestors it then (0, nFeeDelta, 0, 0) else 0)) := by
  have hmem : it ∈ pool'.mapTx := by
    rw [← Finmap.mem_keys, h.keys]
    exact Finmap.mem_keys.mpr (mem_of_coreAt he)
  obtain ⟨e', he'⟩ := CTxMemPool.exists_coreAt hmem
  obtain ⟨e₀, he₀, rfl⟩ := h.exists_coreAt hlinked he'
  rw [he, Option.some.injEq] at he₀
  rw [he', he₀]

lemma Repriced.closures (h : Repriced pool pool' hash nFeeDelta) (it : Uint256) :
    pool'.descendants it = pool.descendants it ∧ pool'.ancestors it = pool.ancestors it := by
  have hchildren : pool'.getMemPoolChildren = pool.getMemPoolChildren :=
    funext fun it => congrArg TxLinks.children (linksAt_of_mapLinks h.mapLinks it)
  unfold descendants ancestors
  rw [h.keys, hchildren]
  exact ⟨rfl, rfl⟩

lemma Repriced.descendantShareAt (h : Repriced pool pool' hash nFeeDelta) (hlinked : Linked pool) {it : Uint256}
    (hit : it ∈ pool.mapTx) : pool'.descendantShareAt it =
      pool.descendantShareAt it + if it = hash then (0, nFeeDelta, 0) else 0 := by
  obtain ⟨e, he⟩ := CTxMemPool.exists_coreAt hit
  rw [descendantShareAt_eq (h.coreAt hlinked he), descendantShareAt_eq he]
  by_cases heq : it = hash
  · simp [heq, CTxMemPoolEntry.descendantShare, CTxMemPoolEntry.shift, CTxMemPoolEntry.getTxSize,
      CTxMemPoolEntry.getModifiedFee, add_assoc]
  · simp [heq, CTxMemPoolEntry.descendantShare, CTxMemPoolEntry.shift, CTxMemPoolEntry.getTxSize,
      CTxMemPoolEntry.getModifiedFee]

lemma Repriced.ancestorShareAt (h : Repriced pool pool' hash nFeeDelta) (hlinked : Linked pool) {it : Uint256}
    (hit : it ∈ pool.mapTx) : pool'.ancestorShareAt it =
      pool.ancestorShareAt it + if it = hash then (0, nFeeDelta, 0, 0) else 0 := by
  obtain ⟨e, he⟩ := CTxMemPool.exists_coreAt hit
  rw [ancestorShareAt_eq (h.coreAt hlinked he), ancestorShareAt_eq he]
  by_cases heq : it = hash
  · simp [heq, CTxMemPoolEntry.ancestorShare, CTxMemPoolEntry.shift, CTxMemPoolEntry.getTxSize,
      CTxMemPoolEntry.getModifiedFee, add_assoc]
  · simp [heq, CTxMemPoolEntry.ancestorShare, CTxMemPoolEntry.shift, CTxMemPoolEntry.getTxSize,
      CTxMemPoolEntry.getModifiedFee]

lemma Repriced.linked (h : Repriced pool pool' hash nFeeDelta) (hlinked : Linked pool) : Linked pool' := by
  have hparents : pool'.getMemPoolParents = pool.getMemPoolParents :=
    funext fun it => congrArg TxLinks.parents (linksAt_of_mapLinks h.mapLinks it)
  have hchildren : pool'.getMemPoolChildren = pool.getMemPoolChildren :=
    funext fun it => congrArg TxLinks.children (linksAt_of_mapLinks h.mapLinks it)
  refine ⟨?_, ?_, ?_⟩
  · rw [h.keys, hparents, hchildren]
    exact hlinked.dag
  · intro it
    rw [h.mapLinks, hlinked.domain, ← Finmap.mem_keys, ← Finmap.mem_keys, h.keys]
  · intro it e' he'
    obtain ⟨e, he, rfl⟩ := h.exists_coreAt hlinked he'
    exact hlinked.ids it e he

lemma Repriced.exact (h : Repriced pool pool' hash nFeeDelta) (hlinked : Linked pool) (hexact : Exact pool) :
    Exact pool' := by
  refine ⟨?_, ?_⟩
  · intro it e' he'
    obtain ⟨e, he, rfl⟩ := h.exists_coreAt hlinked he'
    have hsum : ∑ y ∈ pool.descendants it, pool'.descendantShareAt y = ∑ y ∈ pool.descendants it,
        (pool.descendantShareAt y + if y = hash then (0, nFeeDelta, 0) else 0) :=
      sum_congr rfl fun y hy => h.descendantShareAt hlinked (Finmap.mem_keys.mp (mem_below.mp hy).1)
    rw [CTxMemPoolEntry.descendantState_shift, (h.closures it).1, hsum, sum_add_distrib, sum_ite_eq',
      Pi.zero_apply, add_zero]
    have hcount := hexact.descendants it e he
    rw [Pi.zero_apply, add_zero] at hcount
    rw [← hcount]
    rfl
  · intro it e' he'
    obtain ⟨e, he, rfl⟩ := h.exists_coreAt hlinked he'
    have hsum : ∑ y ∈ pool.ancestors it, pool'.ancestorShareAt y = ∑ y ∈ pool.ancestors it,
        (pool.ancestorShareAt y + if y = hash then (0, nFeeDelta, 0, 0) else 0) :=
      sum_congr rfl fun y hy => h.ancestorShareAt hlinked (Finmap.mem_keys.mp (mem_above.mp hy).1)
    rw [CTxMemPoolEntry.ancestorState_shift, (h.closures it).2, hsum, sum_add_distrib, sum_ite_eq',
      Pi.zero_apply, add_zero]
    have hcount := hexact.ancestors it e he
    rw [Pi.zero_apply, add_zero] at hcount
    rw [← hcount]
    rfl

lemma Repriced.sum_valueAt (h : Repriced pool pool' hash nFeeDelta) (hlinked : Linked pool)
    {f : CTxMemPoolEntry sha256 → ℤ} (hf : ∀ e, f e.core = f e) (hf' : ∀ e d a, f (e.shift d a) = f e)
    (hfee : ∀ e delta, f { e with feeDelta := delta } = f e) :
    ∑ it ∈ pool'.mapTx.keys, pool'.valueAt f it = ∑ it ∈ pool.mapTx.keys, pool.valueAt f it := by
  rw [h.keys]
  apply sum_congr rfl
  intro it hit
  obtain ⟨e, he⟩ := CTxMemPool.exists_coreAt (Finmap.mem_keys.mp hit)
  rw [valueAt_eq_of_core hf (h.coreAt hlinked he), hf', hfee, valueAt_eq_of_core hf he]

lemma Repriced.exists_tx_iff (h : Repriced pool pool' hash nFeeDelta) (hlinked : Linked pool) {it : Uint256}
    (P : CTransaction sha256 → Prop) :
    (∃ e, pool'.coreAt it = some e ∧ P e.tx) ↔ ∃ e, pool.coreAt it = some e ∧ P e.tx := by
  constructor
  · rintro ⟨e', he', hP⟩
    obtain ⟨e, he, rfl⟩ := h.exists_coreAt hlinked he'
    exact ⟨e, he, hP⟩
  · rintro ⟨e, he, hP⟩
    exact ⟨_, h.coreAt hlinked he, hP⟩

lemma Repriced.accounting (h : Repriced pool pool' hash nFeeDelta) (hacc : Accounting pool) : Accounting pool' := by
  have husage : pool'.linkUsage = pool.linkUsage := by
    unfold linkUsage
    rw [h.mapLinks]
    exact sum_congr rfl fun it _ => by rw [linksAt_of_mapLinks h.mapLinks]
  refine ⟨⟨h.linked hacc.linked, ?_, h.exact hacc.linked hacc.exact, ?_, ?_, ?_⟩, ?_⟩
  · intro o tx
    rw [h.mapNextTx, hacc.next]
    exact exists_congr fun it =>
      (h.exists_tx_iff hacc.linked (fun t => t = tx ∧ ∃ txin ∈ tx.vin, txin.prevout = o)).symm
  · intro it e' he'
    obtain ⟨e, he, rfl⟩ := h.exists_coreAt hacc.linked he'
    rw [h.mapDeltas]
    by_cases hit : it = hash
    · rw [hit, Finmap.lookup_insert, ← hit, ← hacc.deltas it e he]
      simp [CTxMemPoolEntry.shift]
    · rw [Finmap.lookup_insert_of_ne _ hit, ← hacc.deltas it e he]
      simp [CTxMemPoolEntry.shift, hit]
  · rw [h.totalTxSize, hacc.totalTxSize,
      h.sum_valueAt hacc.linked (fun _ => rfl) (fun _ _ _ => rfl) (fun _ _ => rfl)]
  · rw [h.cachedInnerUsage, husage, hacc.usage,
      h.sum_valueAt hacc.linked (fun _ => rfl) (fun _ _ _ => rfl) (fun _ _ => rfl)]
  · intro child parent
    have hparents : pool'.getMemPoolParents child = pool.getMemPoolParents child :=
      congrArg TxLinks.parents (linksAt_of_mapLinks h.mapLinks child)
    rw [hparents, hacc.parents, Spends, Spends, ← Finmap.mem_keys, ← Finmap.mem_keys, h.keys]
    exact and_congr_right' (h.exists_tx_iff hacc.linked (fun t => ∃ txin ∈ t.vin, txin.prevout.hash = parent)).symm

end

lemma Accounting.prioritiseTransaction (hacc : Accounting pool) (hash : Uint256) (nFeeDelta : ℤ) :
    ∃ pool', pool.prioritiseTransaction hash nFeeDelta = some pool' ∧ Accounting pool' := by
  by_cases hmem : hash ∈ pool.mapTx
  · obtain ⟨pool', hpool', hrepriced⟩ := exists_prioritiseTransaction hacc.toBooked hmem nFeeDelta
    exact ⟨pool', hpool', hrepriced.accounting hacc⟩
  · refine ⟨_, if_neg hmem, ⟨(hacc.consistent.withDeltas _).linked, hacc.next,
      ⟨hacc.exact.descendants, hacc.exact.ancestors⟩, ?_, hacc.totalTxSize, hacc.usage⟩, hacc.parents⟩
    intro it e he
    have hit : it ≠ hash := fun heq => hmem (heq ▸ mem_of_coreAt he)
    rw [Finmap.lookup_insert_of_ne _ hit]
    exact hacc.deltas it e he

end Prioritise

end CTxMemPool

end MutableBitcoin
