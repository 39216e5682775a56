import MutableBitcoin.MempoolCounters

/-!
# Removal from the pool

`RemoveStaged` takes a set of entries out of the pool, behind the updates of the entries that stay.
-/

namespace MutableBitcoin
open Lib Finset Prod

lemma CTxMemPoolEntry.getTxSize_pos {sha256 : Bytes → Uint256} (e : CTxMemPoolEntry sha256) : 0 < e.getTxSize := by
  have hserialize : 4 ≤ e.tx.toCMutableTransaction.getSerializeSize networkStream := by
    unfold CMutableTransaction.getSerializeSize CMutableTransaction.serialize serializeUInt32
    simp only [List.length_append, length_leBytes]
    omega
  have hweight : 4 ≤ getTransactionWeight e.tx.toCMutableTransaction :=
    hserialize.trans (Nat.le_add_left _ _)
  have hmax := hweight.trans (le_max_left _ (e.sigOpCost * DEFAULT_BYTES_PER_SIGOP))
  have hpos : 0 < getVirtualTransactionSize (getTransactionWeight e.tx.toCMutableTransaction) e.sigOpCost := by
    unfold getVirtualTransactionSize WITNESS_SCALE_FACTOR
    omega
  exact Int.natCast_pos.mpr hpos

namespace CTxMemPool

variable {sha256 : Bytes → Uint256}

section Counted

/-- The descendant counters are the totals and some slack. -/
def CountsDescendants (pool : CTxMemPool sha256) (slack : Uint256 → ℤ × ℤ × ℤ) : Prop :=
  ∀ it e, pool.coreAt it = some e →
    e.descendantState = ∑ y ∈ pool.descendants it, pool.descendantShareAt y + slack it

/-- The ancestor counters are the totals and some slack. -/
def CountsAncestors (pool : CTxMemPool sha256) (slack : Uint256 → ℤ × ℤ × ℤ × ℤ) : Prop :=
  ∀ it e, pool.coreAt it = some e →
    e.ancestorState = ∑ y ∈ pool.ancestors it, pool.ancestorShareAt y + slack it

variable {pool : CTxMemPool sha256}

lemma descendantShareAt_nonneg (pool : CTxMemPool sha256) (it : Uint256) :
    0 ≤ (pool.descendantShareAt it).1 ∧ 0 ≤ (pool.descendantShareAt it).2.2 := by
  cases hit : pool.coreAt it with
  | none =>
    rw [descendantShareAt, hit]
    exact ⟨le_rfl, le_rfl⟩
  | some e =>
    rw [descendantShareAt_eq hit]
    exact ⟨e.getTxSize_pos.le, zero_le_one⟩

lemma ancestorShareAt_nonneg (pool : CTxMemPool sha256) (it : Uint256) :
    0 ≤ (pool.ancestorShareAt it).1 ∧ 0 ≤ (pool.ancestorShareAt it).2.2.1 ∧
      0 ≤ (pool.ancestorShareAt it).2.2.2 := by
  cases hit : pool.coreAt it with
  | none =>
    rw [ancestorShareAt, hit]
    exact ⟨le_rfl, le_rfl, le_rfl⟩
  | some e =>
    rw [ancestorShareAt_eq hit]
    exact ⟨e.getTxSize_pos.le, zero_le_one, Int.natCast_nonneg _⟩

lemma le_sum_sub_sum {s t : SetEntries} {x : Uint256} {g : Uint256 → ℤ} (hx : x ∈ s) (ht : t ⊆ s.erase x)
    (hg : ∀ y, 0 ≤ g y) : g x ≤ ∑ y ∈ s, g y - ∑ y ∈ t, g y := by
  rw [← add_sum_erase s g hx]
  have hle := sum_le_sum_of_subset_of_nonneg ht (fun y _ _ => hg y)
  linarith

lemma CountsDescendants.room {slack : Uint256 → ℤ × ℤ × ℤ} (h : CountsDescendants pool slack)
    (hslack : ∀ it, 0 ≤ (slack it).1 ∧ 0 ≤ (slack it).2.2) (hlinked : Linked pool) {it : Uint256}
    {e : CTxMemPoolEntry sha256} (he : pool.coreAt it = some e) {t : SetEntries}
    (ht : t ⊆ (pool.descendants it).erase it) :
    0 < (e.descendantState - ∑ y ∈ t, pool.descendantShareAt y).1 ∧
      0 < (e.descendantState - ∑ y ∈ t, pool.descendantShareAt y).2.2 := by
  have hself : it ∈ pool.descendants it := hlinked.dag.mem_below_self (Finmap.mem_keys.mpr (mem_of_coreAt he))
  have hsize := le_sum_sub_sum (g := fun y => (pool.descendantShareAt y).1) hself ht
    (fun y => (descendantShareAt_nonneg pool y).1)
  have hcount := le_sum_sub_sum (g := fun y => (pool.descendantShareAt y).2.2) hself ht
    (fun y => (descendantShareAt_nonneg pool y).2)
  have hown := descendantShareAt_eq he
  rw [hown] at hsize hcount
  rw [h it e he]
  simp only [fst_sub, snd_sub, fst_add, snd_add, fst_sum, snd_sum]
  have hpos := e.getTxSize_pos
  have hs := hslack it
  have hone : e.descendantShare.2.2 = 1 := rfl
  have hsz : e.descendantShare.1 = e.getTxSize := rfl
  constructor
  · linarith
  · linarith

lemma CountsAncestors.room {slack : Uint256 → ℤ × ℤ × ℤ × ℤ} (h : CountsAncestors pool slack)
    (hslack : ∀ it, 0 ≤ (slack it).1 ∧ 0 ≤ (slack it).2.2.1 ∧ 0 ≤ (slack it).2.2.2) (hlinked : Linked pool)
    {it : Uint256} {e : CTxMemPoolEntry sha256} (he : pool.coreAt it = some e) {t : SetEntries}
    (ht : t ⊆ (pool.ancestors it).erase it) :
    0 < (e.ancestorState - ∑ y ∈ t, pool.ancestorShareAt y).1 ∧
      0 < (e.ancestorState - ∑ y ∈ t, pool.ancestorShareAt y).2.2.1 ∧
      0 ≤ (e.ancestorState - ∑ y ∈ t, pool.ancestorShareAt y).2.2.2 := by
  have hself : it ∈ pool.ancestors it := hlinked.dag.mem_above_self (Finmap.mem_keys.mpr (mem_of_coreAt he))
  have hsize := le_sum_sub_sum (g := fun y => (pool.ancestorShareAt y).1) hself ht
    (fun y => (ancestorShareAt_nonneg pool y).1)
  have hcount := le_sum_sub_sum (g := fun y => (pool.ancestorShareAt y).2.2.1) hself ht
    (fun y => (ancestorShareAt_nonneg pool y).2.1)
  have hsigops := le_sum_sub_sum (g := fun y => (pool.ancestorShareAt y).2.2.2) hself ht
    (fun y => (ancestorShareAt_nonneg pool y).2.2)
  have hown := ancestorShareAt_eq he
  rw [hown] at hsize hcount hsigops
  rw [h it e he]
  simp only [fst_sub, snd_sub, fst_add, snd_add, fst_sum, snd_sum]
  have hpos := e.getTxSize_pos
  have hs := hslack it
  have hone : e.ancestorShare.2.2.1 = 1 := rfl
  have hsz : e.ancestorShare.1 = e.getTxSize := rfl
  have hops : 0 ≤ e.ancestorShare.2.2.2 := Int.natCast_nonneg _
  refine ⟨?_, ?_, ?_⟩
  · linarith
  · linarith
  · linarith

end Counted

section Modify

variable {pool : CTxMemPool sha256}

lemma exists_modifyAll_descendantState (pool : CTxMemPool sha256) (s : SetEntries) (δ : ℤ × ℤ × ℤ)
    (h : ∀ it ∈ s, ∀ e, pool.coreAt it = some e →
      0 < (e.descendantState + δ).1 ∧ 0 < (e.descendantState + δ).2.2) :
    ∃ pool', pool.modifyAll s (CTxMemPoolEntry.updateDescendantState δ.1 δ.2.1 δ.2.2) = some pool' ∧
      pool'.mapLinks = pool.mapLinks ∧ Shifted pool pool' (fun it => if it ∈ s then δ else 0) 0 := by
  have hupdate : ∀ it ∈ s, ∀ e, pool.mapTx.lookup it = some e →
      e.updateDescendantState δ.1 δ.2.1 δ.2.2 = some (e.shift δ 0) := by
    intro it hit e he
    have hpos := h it hit e.core (by rw [coreAt, he]; rfl)
    exact CTxMemPoolEntry.updateDescendantState_eq hpos.1 hpos.2
  obtain ⟨pool', hpool'⟩ := exists_modifyAll pool (s := s)
    (f := CTxMemPoolEntry.updateDescendantState δ.1 δ.2.1 δ.2.2)
    (fun it hit e he => by rw [hupdate it hit e he]; rfl)
  have hmod := modified_of_modifyAll hpool'
  refine ⟨pool', hpool', by rw [hmod.rest], (hmod.shifted hupdate).congr (fun _ _ => rfl) ?_⟩
  intro it _
  exact ite_self 0

lemma exists_modifyAll_ancestorState (pool : CTxMemPool sha256) (s : SetEntries) (δ : ℤ × ℤ × ℤ × ℤ)
    (h : ∀ it ∈ s, ∀ e, pool.coreAt it = some e → 0 < (e.ancestorState + δ).1 ∧
      0 < (e.ancestorState + δ).2.2.1 ∧ 0 ≤ (e.ancestorState + δ).2.2.2) :
    ∃ pool', pool.modifyAll s (CTxMemPoolEntry.updateAncestorState δ.1 δ.2.1 δ.2.2.1 δ.2.2.2) = some pool' ∧
      pool'.mapLinks = pool.mapLinks ∧ Shifted pool pool' 0 (fun it => if it ∈ s then δ else 0) := by
  have hupdate : ∀ it ∈ s, ∀ e, pool.mapTx.lookup it = some e →
      e.updateAncestorState δ.1 δ.2.1 δ.2.2.1 δ.2.2.2 = some (e.shift 0 δ) := by
    intro it hit e he
    have hpos := h it hit e.core (by rw [coreAt, he]; rfl)
    exact CTxMemPoolEntry.updateAncestorState_eq hpos.1 hpos.2.1 hpos.2.2
  obtain ⟨pool', hpool'⟩ := exists_modifyAll pool (s := s)
    (f := CTxMemPoolEntry.updateAncestorState δ.1 δ.2.1 δ.2.2.1 δ.2.2.2)
    (fun it hit e he => by rw [hupdate it hit e he]; rfl)
  have hmod := modified_of_modifyAll hpool'
  refine ⟨pool', hpool', by rw [hmod.rest], (hmod.shifted hupdate).congr ?_ (fun _ _ => rfl)⟩
  intro it _
  exact ite_self 0

lemma linksAt_of_mapLinks {pool' : CTxMemPool sha256} (h : pool'.mapLinks = pool.mapLinks) (it : Uint256) :
    pool'.linksAt it = pool.linksAt it := by
  rw [linksAt, h, linksAt]

lemma Linked.of_shifted {pool' : CTxMemPool sha256} {d : Uint256 → ℤ × ℤ × ℤ} {a : Uint256 → ℤ × ℤ × ℤ × ℤ}
    (h : Linked pool) (hshift : Shifted pool pool' d a) (hlinks : pool'.mapLinks = pool.mapLinks) :
    Linked pool' := by
  have hparents : pool'.getMemPoolParents = pool.getMemPoolParents :=
    funext fun it => congrArg TxLinks.parents (linksAt_of_mapLinks hlinks it)
  have hchildren : pool'.getMemPoolChildren = pool.getMemPoolChildren :=
    funext fun it => congrArg TxLinks.children (linksAt_of_mapLinks hlinks it)
  refine ⟨?_, ?_, ?_⟩
  · rw [hshift.keys, hparents, hchildren]
    exact h.dag
  · intro it
    rw [hlinks, h.domain, hshift.mem_iff]
  · intro it e' he'
    obtain ⟨e, he, rfl⟩ := hshift.exists_coreAt he'
    exact h.ids it e he

lemma descendants_of_shifted {pool' : CTxMemPool sha256} {d : Uint256 → ℤ × ℤ × ℤ} {a : Uint256 → ℤ × ℤ × ℤ × ℤ}
    (hshift : Shifted pool pool' d a) (hlinks : pool'.mapLinks = pool.mapLinks) (it : Uint256) :
    pool'.descendants it = pool.descendants it ∧ pool'.ancestors it = pool.ancestors it := by
  have hchildren : pool'.getMemPoolChildren = pool.getMemPoolChildren :=
    funext fun it => congrArg TxLinks.children (linksAt_of_mapLinks hlinks it)
  unfold descendants ancestors
  rw [hshift.keys, hchildren]
  exact ⟨rfl, rfl⟩

end Modify

section Links

variable {pool : CTxMemPool sha256}

lemma linksAt_updateChild (entry child : Uint256) (add : Bool) (it : Uint256) :
    (pool.updateChild entry child add).linksAt it = if it = entry then
      ⟨(pool.linksAt it).parents, if add then insert child (pool.linksAt it).children
        else (pool.linksAt it).children.erase child⟩ else pool.linksAt it := by
  by_cases hit : it = entry
  · subst hit
    cases add <;> simp [updateChild, linksAt_insert]
  · cases add <;> simp [updateChild, hit, linksAt]

lemma linksAt_updateParent (entry parent : Uint256) (add : Bool) (it : Uint256) :
    (pool.updateParent entry parent add).linksAt it = if it = entry then
      ⟨if add then insert parent (pool.linksAt it).parents else (pool.linksAt it).parents.erase parent,
        (pool.linksAt it).children⟩ else pool.linksAt it := by
  by_cases hit : it = entry
  · subst hit
    cases add <;> simp [updateParent, linksAt_insert]
  · cases add <;> simp [updateParent, hit, linksAt]

lemma mem_mapLinks_updateChild (pool : CTxMemPool sha256) (entry child : Uint256) (add : Bool) (it : Uint256) :
    it ∈ (pool.updateChild entry child add).mapLinks ↔ it = entry ∨ it ∈ pool.mapLinks := by
  cases add <;> exact Finmap.mem_insert

lemma mem_mapLinks_updateParent (pool : CTxMemPool sha256) (entry parent : Uint256) (add : Bool) (it : Uint256) :
    it ∈ (pool.updateParent entry parent add).mapLinks ↔ it = entry ∨ it ∈ pool.mapLinks := by
  cases add <;> exact Finmap.mem_insert

lemma linksAt_foldl_updateChild_false (child : Uint256) (l : List Uint256) (it : Uint256) :
    (l.foldl (fun pool entry => pool.updateChild entry child false) pool).linksAt it = if it ∈ l then
      ⟨(pool.linksAt it).parents, (pool.linksAt it).children.erase child⟩ else pool.linksAt it := by
  induction l generalizing pool with
  | nil => simp
  | cons entry l ih =>
    rw [List.foldl_cons, ih, linksAt_updateChild]
    by_cases hentry : it = entry
    · simp [hentry]
    · simp [hentry]

lemma linksAt_foldl_updateChild_true (pool : CTxMemPool sha256) (child : Uint256) (l : List Uint256) (it : Uint256) :
    (l.foldl (fun pool entry => pool.updateChild entry child true) pool).linksAt it = if it ∈ l then
      ⟨(pool.linksAt it).parents, insert child (pool.linksAt it).children⟩ else pool.linksAt it := by
  induction l generalizing pool with
  | nil => simp
  | cons entry l ih =>
    rw [List.foldl_cons, ih, linksAt_updateChild]
    by_cases hentry : it = entry
    · simp [hentry]
    · simp [hentry]

lemma linksAt_foldl_updateParent_false (parent : Uint256) (l : List Uint256) (it : Uint256) :
    (l.foldl (fun pool entry => pool.updateParent entry parent false) pool).linksAt it = if it ∈ l then
      ⟨(pool.linksAt it).parents.erase parent, (pool.linksAt it).children⟩ else pool.linksAt it := by
  induction l generalizing pool with
  | nil => simp
  | cons entry l ih =>
    rw [List.foldl_cons, ih, linksAt_updateParent]
    by_cases hentry : it = entry
    · simp [hentry]
    · simp [hentry]

lemma mem_mapLinks_foldl (pool : CTxMemPool sha256) {step : CTxMemPool sha256 → Uint256 → CTxMemPool sha256}
    (h : ∀ pool entry it, it ∈ (step pool entry).mapLinks ↔ it = entry ∨ it ∈ pool.mapLinks) (l : List Uint256)
    (it : Uint256) : it ∈ (l.foldl step pool).mapLinks ↔ it ∈ l ∨ it ∈ pool.mapLinks := by
  induction l generalizing pool with
  | nil => simp
  | cons entry l ih =>
    rw [List.foldl_cons, ih, h, List.mem_cons]
    tauto

end Links

section InOrder

variable {P : SetEntries → CTxMemPool sha256 → Prop} {S : SetEntries}

lemma exists_foldlM_inOrder (step : CTxMemPool sha256 → Uint256 → Option (CTxMemPool sha256))
    (hstep : ∀ cur done r, r ∈ S → r ∉ done → P done cur → ∃ next, step cur r = some next ∧ P (insert r done) next)
    {pool : CTxMemPool sha256} (hinit : P ∅ pool) : ∃ next, S.inOrder.foldlM step pool = some next ∧ P S next := by
  have hloop : ∀ (l : List Uint256) (cur : CTxMemPool sha256) (done : SetEntries), l.Nodup →
      (∀ r ∈ l, r ∈ S ∧ r ∉ done) → P done cur →
      ∃ next, l.foldlM step cur = some next ∧ P (done ∪ l.toFinset) next := by
    intro l
    induction l with
    | nil => exact fun cur done _ _ h => ⟨cur, rfl, by simpa using h⟩
    | cons r l ih =>
      intro cur done hnodup hl h
      rw [List.nodup_cons] at hnodup
      obtain ⟨mid, hmid, hP⟩ := hstep cur done r (hl r List.mem_cons_self).1 (hl r List.mem_cons_self).2 h
      obtain ⟨next, hnext, hP'⟩ := ih mid (insert r done) hnodup.2 (by
        intro x hx
        refine ⟨(hl x (List.mem_cons_of_mem _ hx)).1, ?_⟩
        rw [mem_insert, not_or]
        refine ⟨?_, (hl x (List.mem_cons_of_mem _ hx)).2⟩
        rintro rfl
        exact hnodup.1 hx) hP
      refine ⟨next, ?_, ?_⟩
      · rw [List.foldlM_cons, hmid]
        exact hnext
      · rwa [List.toFinset_cons, union_insert, ← insert_union]
  obtain ⟨next, hnext, hP⟩ := hloop S.inOrder pool ∅ S.nodup_inOrder
    (fun r hr => ⟨SetEntries.mem_inOrder.mp hr, notMem_empty r⟩) hinit
  rw [toFinset_inOrder, empty_union] at hP
  exact ⟨next, hnext, hP⟩

lemma foldl_inOrder (step : CTxMemPool sha256 → Uint256 → CTxMemPool sha256)
    (hstep : ∀ cur done r, r ∈ S → r ∉ done → P done cur → P (insert r done) (step cur r))
    {pool : CTxMemPool sha256} (hinit : P ∅ pool) : P S (S.inOrder.foldl step pool) := by
  obtain ⟨next, hnext, hP⟩ := exists_foldlM_inOrder (fun cur r => some (step cur r))
    (fun cur done r hr hnew h => ⟨step cur r, rfl, hstep cur done r hr hnew h⟩) hinit
  have heq : S.inOrder.foldlM (fun cur r => some (step cur r)) pool = some (S.inOrder.foldl step pool) :=
    List.foldlM_pure
  rw [heq] at hnext
  rwa [Option.some.inj hnext]

end InOrder

section Detach

variable {pool cur : CTxMemPool sha256} {slack : Uint256 → ℤ × ℤ × ℤ}

/-- The entries of `done` no longer count for their ancestors, which have lost them as children. -/
structure Detached (pool cur : CTxMemPool sha256) (done : SetEntries) : Prop where
  shifted : Shifted pool cur
    (fun x => -∑ r ∈ done ∩ (pool.descendants x).erase x, pool.descendantShareAt r) 0
  parents : ∀ x, cur.getMemPoolParents x = pool.getMemPoolParents x
  children : ∀ x, cur.getMemPoolChildren x = pool.getMemPoolChildren x \ done
  domain : ∀ x, x ∈ cur.mapLinks ↔ x ∈ pool.mapLinks

lemma Detached.refl (pool : CTxMemPool sha256) : Detached pool pool ∅ := by
  refine ⟨(Shifted.refl pool).congr ?_ (fun _ _ => rfl), fun _ => rfl, fun _ => by simp, fun _ => Iff.rfl⟩
  intro x _
  simp

lemma Detached.linkedAncestors_eq {done : SetEntries} (hlinked : Linked pool) (h : Detached pool cur done)
    {r : Uint256} (hr : r ∈ pool.mapTx) : cur.linkedAncestors r = (pool.ancestors r).erase r := by
  have hparents : cur.getMemPoolParents = pool.getMemPoolParents := funext h.parents
  have hids : ∀ it e, cur.coreAt it = some e → e.tx.hash = it := by
    intro it e' he'
    obtain ⟨e, he, rfl⟩ := h.shifted.exists_coreAt he'
    exact hlinked.ids it e he
  ext y
  rw [mem_linkedAncestors hids (fun x _ => by rw [h.parents, h.shifted.keys]; exact hlinked.parents_sub x)
    ((h.shifted.mem_iff r).mpr hr), hparents, hlinked.dag.exists_parent_iff, mem_erase,
    hlinked.mem_ancestors hr]

lemma sum_insert_inter {M : Type} [AddCommGroup M] {done s : SetEntries} {r : Uint256} (hr : r ∉ done)
    (g : Uint256 → M) : -∑ x ∈ insert r done ∩ s, g x = -∑ x ∈ done ∩ s, g x + if r ∈ s then -g r else 0 := by
  split_ifs with hs
  · rw [insert_inter_of_mem hs, sum_insert (fun h => hr (mem_inter.mp h).1), neg_add_rev]
  · rw [insert_inter_of_notMem hs, add_zero]

lemma Detached.step {done : SetEntries} (hlinked : Linked pool) (hcounts : CountsDescendants pool slack)
    (hslack : ∀ it, 0 ≤ (slack it).1 ∧ 0 ≤ (slack it).2.2) (h : Detached pool cur done) {r : Uint256}
    (hr : r ∈ pool.mapTx) (hnew : r ∉ done) :
    ∃ next, cur.updateAncestorsOf false r (cur.linkedAncestors r) = some next ∧
      Detached pool next (insert r done) := by
  obtain ⟨e, he⟩ := exists_coreAt hr
  have he' := h.shifted.coreAt he
  have hshare : (-1 * cur.valueAt (·.getTxSize) r, -1 * cur.valueAt (·.getModifiedFee) r, (-1 : ℤ)) =
      -pool.descendantShareAt r := by
    rw [valueAt_eq_of_core (fun _ => rfl) he', valueAt_eq_of_core (fun _ => rfl) he', descendantShareAt_eq he]
    simp [CTxMemPoolEntry.descendantShare, CTxMemPoolEntry.getTxSize, CTxMemPoolEntry.getModifiedFee,
      CTxMemPoolEntry.shift]
  have hunlink : Shifted cur ((cur.getMemPoolParents r).inOrder.foldl
      (fun pool piter => pool.updateChild piter r false) cur) 0 0 :=
    shifted_foldl _ _ (fun _ _ => shifted_updateChild _ _ _ _)
  -- Every ancestor still counts the entry.
  have hroom : ∀ it ∈ (pool.ancestors r).erase r, ∀ e', cur.coreAt it = some e' →
      0 < (e'.descendantState + -pool.descendantShareAt r).1 ∧
        0 < (e'.descendantState + -pool.descendantShareAt r).2.2 := by
    intro it hit e' he'
    obtain ⟨e₀, he₀, rfl⟩ := h.shifted.exists_coreAt he'
    obtain ⟨hne, hmem⟩ := mem_erase.mp hit
    have hdesc : r ∈ (pool.descendants it).erase it :=
      mem_erase.mpr ⟨hne.symm, (hlinked.mem_ancestors_iff (mem_of_coreAt he₀) hr).mp hmem⟩
    have hpos := hcounts.room hslack hlinked he₀ (t := insert r done ∩ (pool.descendants it).erase it)
      inter_subset_right
    rw [sub_eq_add_neg, sum_insert_inter hnew, if_pos hdesc, ← add_assoc] at hpos
    exact hpos
  obtain ⟨next, hnext, hlinks, hshift⟩ := exists_modifyAll_descendantState
    ((cur.getMemPoolParents r).inOrder.foldl (fun pool piter => pool.updateChild piter r false) cur)
    ((pool.ancestors r).erase r) (-pool.descendantShareAt r) (by
      intro it hit e' he'
      obtain ⟨e₀, he₀, rfl⟩ := hunlink.exists_coreAt he'
      rw [Pi.zero_apply, Pi.zero_apply, CTxMemPoolEntry.shift_zero]
      exact hroom it hit e₀ he₀)
  refine ⟨next, ?_, ?_, ?_, ?_, ?_⟩
  · unfold updateAncestorsOf
    rw [h.linkedAncestors_eq hlinked hr]
    dsimp only
    simp only [Bool.false_eq_true, if_false]
    rw [← hshare] at hnext
    exact hnext
  · apply (h.shifted.trans (hunlink.trans hshift)).congr
    · intro x hx
      rw [Pi.add_apply, Pi.add_apply, Pi.zero_apply, zero_add, sum_insert_inter hnew]
      congr 1
      simp only [mem_erase, hlinked.mem_ancestors_iff hx hr, ne_comm]
    · intro x _
      simp
  · intro x
    rw [← h.parents x]
    unfold getMemPoolParents
    rw [linksAt_of_mapLinks hlinks, linksAt_foldl_updateChild_false]
    split_ifs <;> rfl
  · intro x
    have hmem : x ∈ (cur.getMemPoolParents r).inOrder ↔ r ∈ pool.getMemPoolChildren x := by
      rw [SetEntries.mem_inOrder, h.parents, hlinked.dag.symm]
    rw [sdiff_insert, ← h.children x]
    unfold getMemPoolChildren
    rw [linksAt_of_mapLinks hlinks, linksAt_foldl_updateChild_false]
    split_ifs with hx
    · rfl
    · rw [erase_eq_of_notMem]
      intro hr'
      have hr'' : r ∈ cur.getMemPoolChildren x := hr'
      rw [h.children, mem_sdiff] at hr''
      exact hx (hmem.mpr hr''.1)
  · intro x
    rw [hlinks, mem_mapLinks_foldl _ (fun pool entry it => mem_mapLinks_updateChild pool entry r false it), h.domain]
    refine ⟨?_, Or.inr⟩
    rintro (hx | hx)
    · rw [SetEntries.mem_inOrder, h.parents] at hx
      exact (hlinked.domain x).mpr (Finmap.mem_keys.mp (hlinked.parents_sub r hx))
    · exact hx

end Detach

section Lower

variable {pool cur : CTxMemPool sha256} {slack : Uint256 → ℤ × ℤ × ℤ × ℤ}

/-- The entries of `done` no longer count for their descendants. -/
structure Lowered (pool cur : CTxMemPool sha256) (done : SetEntries) : Prop where
  shifted : Shifted pool cur 0
    (fun x => -∑ r ∈ done ∩ (pool.ancestors x).erase x, pool.ancestorShareAt r)
  links : cur.mapLinks = pool.mapLinks

lemma Lowered.refl (pool : CTxMemPool sha256) : Lowered pool pool ∅ := by
  refine ⟨(Shifted.refl pool).congr (fun _ _ => rfl) ?_, rfl⟩
  intro x _
  simp

lemma Lowered.step {done : SetEntries} (hlinked : Linked pool) (hcounts : CountsAncestors pool slack)
    (hslack : ∀ it, 0 ≤ (slack it).1 ∧ 0 ≤ (slack it).2.2.1 ∧ 0 ≤ (slack it).2.2.2) (h : Lowered pool cur done)
    {r : Uint256} (hr : r ∈ pool.mapTx) (hnew : r ∉ done) :
    ∃ next, cur.updateDescendantsOf r = some next ∧ Lowered pool next (insert r done) := by
  obtain ⟨e, he⟩ := exists_coreAt hr
  have he' := h.shifted.coreAt he
  have hshare : (-cur.valueAt (·.getTxSize) r, -cur.valueAt (·.getModifiedFee) r, (-1 : ℤ),
      -cur.valueAt (·.sigOpCost) r) = -pool.ancestorShareAt r := by
    rw [valueAt_eq_of_core (fun _ => rfl) he', valueAt_eq_of_core (fun _ => rfl) he',
      valueAt_eq_of_core (fun _ => rfl) he', ancestorShareAt_eq he]
    rfl
  have hdescendants : (cur.calculateDescendants r ∅).erase r = (pool.descendants r).erase r := by
    rw [(hlinked.of_shifted h.shifted h.links).calculateDescendants_eq ((h.shifted.mem_iff r).mpr hr),
      (descendants_of_shifted h.shifted h.links r).1]
  -- Every descendant still counts the entry.
  have hroom : ∀ it ∈ (pool.descendants r).erase r, ∀ e', cur.coreAt it = some e' →
      0 < (e'.ancestorState + -pool.ancestorShareAt r).1 ∧
        0 < (e'.ancestorState + -pool.ancestorShareAt r).2.2.1 ∧
        0 ≤ (e'.ancestorState + -pool.ancestorShareAt r).2.2.2 := by
    intro it hit e' he'
    obtain ⟨e₀, he₀, rfl⟩ := h.shifted.exists_coreAt he'
    obtain ⟨hne, hmem⟩ := mem_erase.mp hit
    have hanc : r ∈ (pool.ancestors it).erase it :=
      mem_erase.mpr ⟨hne.symm, (hlinked.mem_ancestors_iff hr (mem_of_coreAt he₀)).mpr hmem⟩
    have hpos := hcounts.room hslack hlinked he₀ (t := insert r done ∩ (pool.ancestors it).erase it)
      inter_subset_right
    rw [sub_eq_add_neg, sum_insert_inter hnew, if_pos hanc, ← add_assoc] at hpos
    exact hpos
  obtain ⟨next, hnext, hlinks, hshift⟩ := exists_modifyAll_ancestorState _ _ _ hroom
  refine ⟨next, ?_, ?_, hlinks.trans h.links⟩
  · unfold updateDescendantsOf
    rw [hdescendants]
    rw [← hshare] at hnext
    exact hnext
  · apply (h.shifted.trans hshift).congr
    · intro x _
      simp
    · intro x hx
      rw [Pi.add_apply, sum_insert_inter hnew]
      congr 1
      simp only [mem_erase, hlinked.mem_ancestors_iff hr hx, ne_comm]

end Lower

section Unparent

variable {pool cur : CTxMemPool sha256}

/-- The children of the entries of `done` have lost them as parents. -/
structure Unparented (pool cur : CTxMemPool sha256) (done : SetEntries) : Prop where
  shifted : Shifted pool cur 0 0
  parents : ∀ x, cur.getMemPoolParents x = pool.getMemPoolParents x \ (done.filter (x ∈ pool.getMemPoolChildren ·))
  children : ∀ x, cur.getMemPoolChildren x = pool.getMemPoolChildren x
  domain : ∀ x, x ∈ cur.mapLinks ↔ x ∈ pool.mapLinks

lemma Unparented.refl (pool : CTxMemPool sha256) : Unparented pool pool ∅ :=
  ⟨Shifted.refl pool, fun _ => by simp, fun _ => rfl, fun _ => Iff.rfl⟩

lemma Unparented.step {done : SetEntries} (hdomain : ∀ r, ∀ x ∈ pool.getMemPoolChildren r, x ∈ pool.mapLinks)
    (h : Unparented pool cur done) (r : Uint256) :
    Unparented pool (cur.updateChildrenForRemoval r) (insert r done) := by
  have hchildren : ∀ x, x ∈ (cur.getMemPoolChildren r).inOrder ↔ x ∈ pool.getMemPoolChildren r := by
    intro x
    rw [SetEntries.mem_inOrder, h.children]
  refine ⟨?_, ?_, ?_, ?_⟩
  · have hshift := h.shifted.trans (shifted_foldl _ (cur.getMemPoolChildren r).inOrder
      (fun pool updateIt => shifted_updateParent pool updateIt r false))
    rwa [add_zero, add_zero] at hshift
  · intro x
    have hold := h.parents x
    unfold getMemPoolParents at hold ⊢
    unfold updateChildrenForRemoval
    rw [linksAt_foldl_updateParent_false, filter_insert]
    simp only [hchildren]
    split_ifs with hx
    · rw [sdiff_insert, ← hold]
    · exact hold
  · intro x
    rw [← h.children]
    unfold getMemPoolChildren updateChildrenForRemoval
    rw [linksAt_foldl_updateParent_false]
    split_ifs <;> rfl
  · intro x
    unfold updateChildrenForRemoval
    rw [mem_mapLinks_foldl _ (fun pool entry it => mem_mapLinks_updateParent pool entry r false it), h.domain, hchildren]
    exact ⟨fun hx => hx.elim (hdomain r x) id, Or.inr⟩

end Unparent

section Erase

variable {pool cur : CTxMemPool sha256}

/-- The entries of `done` are gone, with their links and the outputs they spent. -/
structure Erased (pool cur : CTxMemPool sha256) (done : SetEntries) : Prop where
  entries : ∀ it ∉ done, cur.coreAt it = pool.coreAt it
  gone : ∀ it ∈ done, cur.coreAt it = none
  links : ∀ it ∉ done, cur.mapLinks.lookup it = pool.mapLinks.lookup it
  linksGone : ∀ it ∈ done, cur.mapLinks.lookup it = none
  nextGone : ∀ it ∈ done, ∀ e, pool.coreAt it = some e → ∀ txin ∈ e.tx.vin,
    cur.mapNextTx.lookup txin.prevout = none
  nextKept : ∀ o, (∀ it ∈ done, ∀ e, pool.coreAt it = some e → ∀ txin ∈ e.tx.vin, txin.prevout ≠ o) →
    cur.mapNextTx.lookup o = pool.mapNextTx.lookup o
  nextSub : ∀ o tx, cur.mapNextTx.lookup o = some tx → pool.mapNextTx.lookup o = some tx
  mapDeltas : cur.mapDeltas = pool.mapDeltas
  totalTxSize : cur.totalTxSize = pool.totalTxSize - ∑ it ∈ done, pool.valueAt (·.getTxSize) it
  balance : cur.cachedInnerUsage - cur.linkUsage =
    pool.cachedInnerUsage - pool.linkUsage - ∑ it ∈ done, pool.valueAt (·.nUsageSize) it

lemma Erased.refl (pool : CTxMemPool sha256) : Erased pool pool ∅ := by
  refine ⟨fun _ _ => rfl, ?_, fun _ _ => rfl, ?_, ?_, fun _ _ => rfl, fun _ _ h => h, rfl, by simp, by simp⟩
  all_goals exact fun it hit => absurd hit (notMem_empty it)

lemma coreAt_dropHash (idx : ℕ) (it : Uint256) : (pool.dropHash idx).coreAt it = pool.coreAt it := by
  unfold dropHash
  split_ifs with hlong
  · cases pool.vTxHashes.getLast? with
    | none => rfl
    | some back =>
      dsimp only [coreAt]
      cases hback : pool.mapTx.lookup back.2 with
      | none => rfl
      | some e =>
        dsimp only
        rw [lookup_insert_apply]
        split_ifs with hit
        · rw [hit, hback]
          rfl
        · rfl
  · rfl

lemma dropHash_rest (pool : CTxMemPool sha256) (idx : ℕ) :
    pool.dropHash idx = { pool with
      mapTx := (pool.dropHash idx).mapTx, vTxHashes := (pool.dropHash idx).vTxHashes } := by
  unfold dropHash
  split_ifs with hlong
  · cases pool.vTxHashes.getLast? <;> rfl
  · rfl

lemma lookup_foldl_erase (vin : List CTxIn) (m : Finmap (fun _ : COutPoint => CTransaction sha256)) (o : COutPoint) :
    (vin.foldl (fun m (txin : CTxIn) => m.erase txin.prevout) m).lookup o =
      if ∃ txin ∈ vin, txin.prevout = o then none else m.lookup o := by
  induction vin generalizing m with
  | nil => simp
  | cons txin vin ih =>
    rw [List.foldl_cons, ih, lookup_erase_apply]
    by_cases ho : o = txin.prevout
    · simp [ho]
    · simp [ho, Ne.symm ho]

lemma removeUnchecked_spec {it : Uint256} {e : CTxMemPoolEntry sha256} (he : pool.coreAt it = some e) :
    (∀ x, (pool.removeUnchecked it).coreAt x = if x = it then none else pool.coreAt x) ∧
    (pool.removeUnchecked it).mapLinks = pool.mapLinks.erase it ∧
    (∀ o, (pool.removeUnchecked it).mapNextTx.lookup o =
      if ∃ txin ∈ e.tx.vin, txin.prevout = o then none else pool.mapNextTx.lookup o) ∧
    (pool.removeUnchecked it).mapDeltas = pool.mapDeltas ∧
    (pool.removeUnchecked it).totalTxSize = pool.totalTxSize - e.getTxSize ∧
    (pool.removeUnchecked it).cachedInnerUsage =
      pool.cachedInnerUsage - e.nUsageSize - linkSize (pool.linksAt it) := by
  obtain ⟨e₀, he₀, rfl⟩ := Option.map_eq_some_iff.mp he
  unfold removeUnchecked
  rw [he₀]
  dsimp only
  generalize hcleared : ({ pool with
    mapNextTx := e₀.tx.vin.foldl (fun m (txin : CTxIn) => m.erase txin.prevout) pool.mapNextTx } :
    CTxMemPool sha256) = cleared
  have hrest := dropHash_rest cleared e₀.vTxHashesIdx
  have hcore : ∀ x, (cleared.dropHash e₀.vTxHashesIdx).coreAt x = pool.coreAt x := by
    intro x
    rw [coreAt_dropHash, ← hcleared]
    rfl
  have hlinks : (cleared.dropHash e₀.vTxHashesIdx).mapLinks = pool.mapLinks := by
    rw [hrest, ← hcleared]
  refine ⟨?_, by rw [hlinks], ?_, ?_, ?_, ?_⟩
  · intro x
    rw [coreAt]
    dsimp only
    rw [lookup_erase_apply, ← hcore]
    split_ifs <;> rfl
  · intro o
    rw [hrest, ← hcleared]
    exact lookup_foldl_erase _ _ _
  · rw [hrest, ← hcleared]
  · rw [hrest, ← hcleared]
    rfl
  · rw [linksAt_of_mapLinks hlinks]
    rw [hrest, ← hcleared]
    rfl

lemma linkUsage_erase {pool' : CTxMemPool sha256} {it : Uint256} (h : pool'.mapLinks = pool.mapLinks.erase it) :
    pool'.linkUsage = pool.linkUsage - linkSize (pool.linksAt it) := by
  unfold linkUsage
  rw [h, keys_erase]
  have hrest : ∑ x ∈ pool.mapLinks.keys.erase it, linkSize (pool'.linksAt x) =
      ∑ x ∈ pool.mapLinks.keys.erase it, linkSize (pool.linksAt x) := by
    apply sum_congr rfl
    intro x hx
    rw [linksAt, h, Finmap.lookup_erase_ne (ne_of_mem_erase hx), linksAt]
  rw [hrest]
  by_cases hmem : it ∈ pool.mapLinks
  · rw [← add_sum_erase _ _ (Finmap.mem_keys.mpr hmem)]
    ring
  · rw [erase_eq_of_notMem (fun h => hmem (Finmap.mem_keys.mp h)), linkSize_of_notMem hmem, sub_zero]

lemma Erased.step {done : SetEntries} (h : Erased pool cur done) {r : Uint256} (hr : r ∈ pool.mapTx)
    (hnew : r ∉ done) : Erased pool (cur.removeUnchecked r) (insert r done) := by
  obtain ⟨e, he⟩ := exists_coreAt hr
  have hcur : cur.coreAt r = some e := (h.entries r hnew).trans he
  obtain ⟨hcore, hlinks, hnext, hdeltas, htotal, husage⟩ := removeUnchecked_spec hcur
  refine ⟨?_, ?_, ?_, ?_, ?_, ?_, ?_, hdeltas.trans h.mapDeltas, ?_, ?_⟩
  · intro it hit
    rw [mem_insert, not_or] at hit
    rw [hcore, if_neg hit.1, h.entries it hit.2]
  · intro it hit
    rw [hcore]
    split_ifs with heq
    · rfl
    · exact h.gone it ((mem_insert.mp hit).resolve_left heq)
  · intro it hit
    rw [mem_insert, not_or] at hit
    rw [hlinks, lookup_erase_apply, if_neg hit.1, h.links it hit.2]
  · intro it hit
    rw [hlinks, lookup_erase_apply]
    split_ifs with heq
    · rfl
    · exact h.linksGone it ((mem_insert.mp hit).resolve_left heq)
  · intro it hit e' he' txin htxin
    rw [hnext]
    split_ifs with hspent
    · rfl
    · obtain rfl | hit := mem_insert.mp hit
      · rw [he, Option.some.injEq] at he'
        exact absurd ⟨txin, he' ▸ htxin, rfl⟩ hspent
      · exact h.nextGone it hit e' he' txin htxin
  · intro o ho
    rw [hnext, if_neg, h.nextKept o (fun it hit => ho it (mem_insert_of_mem hit))]
    rintro ⟨txin, htxin, heq⟩
    exact ho r (mem_insert_self _ _) e he txin htxin heq
  · intro o tx htx
    rw [hnext] at htx
    split_ifs at htx
    exact h.nextSub o tx htx
  · rw [htotal, h.totalTxSize, sum_insert hnew, valueAt_eq_of_core (fun _ => rfl) he]
    ring
  · rw [husage, linkUsage_erase hlinks, sum_insert hnew, valueAt_eq_of_core (fun _ => rfl) he]
    linarith [h.balance]

end Erase

section Staged

variable {pool : CTxMemPool sha256} {slackD : Uint256 → ℤ × ℤ × ℤ} {slackA : Uint256 → ℤ × ℤ × ℤ × ℤ}

/-- What removing a set of entries has changed. -/
structure Removed (pool pool' : CTxMemPool sha256) (stage : SetEntries) (updateDescendants : Bool) : Prop where
  entries : ∀ it ∉ stage, pool'.coreAt it = (pool.coreAt it).map
    (·.shift (-∑ r ∈ stage ∩ pool.descendants it, pool.descendantShareAt r)
      (if updateDescendants then -∑ r ∈ stage ∩ pool.ancestors it, pool.ancestorShareAt r else 0))
  gone : ∀ it ∈ stage, pool'.coreAt it = none
  links : Without stage pool.getMemPoolParents pool.getMemPoolChildren pool'.getMemPoolParents
    pool'.getMemPoolChildren
  domain : ∀ it, it ∈ pool'.mapLinks ↔ it ∈ pool.mapLinks ∧ it ∉ stage
  nextGone : ∀ it ∈ stage, ∀ e, pool.coreAt it = some e → ∀ txin ∈ e.tx.vin,
    pool'.mapNextTx.lookup txin.prevout = none
  nextKept : ∀ o, (∀ it ∈ stage, ∀ e, pool.coreAt it = some e → ∀ txin ∈ e.tx.vin, txin.prevout ≠ o) →
    pool'.mapNextTx.lookup o = pool.mapNextTx.lookup o
  nextSub : ∀ o tx, pool'.mapNextTx.lookup o = some tx → pool.mapNextTx.lookup o = some tx
  mapDeltas : pool'.mapDeltas = pool.mapDeltas
  totalTxSize : pool'.totalTxSize = pool.totalTxSize - ∑ it ∈ stage, pool.valueAt (·.getTxSize) it
  balance : pool'.cachedInnerUsage - pool'.linkUsage =
    pool.cachedInnerUsage - pool.linkUsage - ∑ it ∈ stage, pool.valueAt (·.nUsageSize) it

lemma inter_erase_eq {s t : SetEntries} {x : Uint256} (hx : x ∉ s) : s ∩ t.erase x = s ∩ t := by
  rw [inter_erase, erase_eq_of_notMem (fun h => hx (mem_inter.mp h).1)]

lemma CountsDescendants.of_shifted {pool' : CTxMemPool sha256} {a : Uint256 → ℤ × ℤ × ℤ × ℤ}
    (h : CountsDescendants pool slackD) (hshift : Shifted pool pool' 0 a)
    (hlinks : pool'.mapLinks = pool.mapLinks) : CountsDescendants pool' slackD := by
  intro it e' he'
  obtain ⟨e, he, rfl⟩ := hshift.exists_coreAt he'
  rw [CTxMemPoolEntry.descendantState_shift, (descendants_of_shifted hshift hlinks it).1, h it e he]
  simp only [Pi.zero_apply, add_zero, hshift.descendantShareAt]

/-- Removing entries does not fail, if the counters cover what they count. -/
theorem exists_removeStaged (hlinked : Linked pool) (hD : CountsDescendants pool slackD)
    (hslackD : ∀ it, 0 ≤ (slackD it).1 ∧ 0 ≤ (slackD it).2.2) (hA : CountsAncestors pool slackA)
    (hslackA : ∀ it, 0 ≤ (slackA it).1 ∧ 0 ≤ (slackA it).2.2.1 ∧ 0 ≤ (slackA it).2.2.2) {stage : SetEntries}
    (hstage : stage ⊆ pool.mapTx.keys) (updateDescendants : Bool) :
    ∃ pool', pool.removeStaged stage updateDescendants = some pool' ∧
      Removed pool pool' stage updateDescendants := by
  have hmem : ∀ r ∈ stage, r ∈ pool.mapTx := fun r hr => Finmap.mem_keys.mp (hstage hr)
  -- The descendants, if they stay.
  obtain ⟨low, hlow, hlowLinks, hlowShift⟩ : ∃ low, (if updateDescendants then
      stage.inOrder.foldlM (fun pool removeIt => pool.updateDescendantsOf removeIt) pool else some pool) = some low ∧
      low.mapLinks = pool.mapLinks ∧ Shifted pool low 0 (fun it => if updateDescendants then
        -∑ r ∈ stage ∩ (pool.ancestors it).erase it, pool.ancestorShareAt r else 0) := by
    cases updateDescendants with
    | false => exact ⟨pool, rfl, rfl, Shifted.refl pool⟩
    | true =>
      obtain ⟨low, hlow, hlowered⟩ := exists_foldlM_inOrder (P := fun done cur => Lowered pool cur done) (S := stage) _
        (fun cur done r hr hnew h => h.step hlinked hA hslackA (hmem r hr) hnew) (Lowered.refl pool)
      exact ⟨low, hlow, hlowered.links, hlowered.shifted⟩
  have hlinkedLow := hlinked.of_shifted hlowShift hlowLinks
  have hclosures := descendants_of_shifted hlowShift hlowLinks
  have hmemLow : ∀ r ∈ stage, r ∈ low.mapTx := fun r hr => (hlowShift.mem_iff r).mpr (hmem r hr)
  have hparents : ∀ x, low.getMemPoolParents x = pool.getMemPoolParents x :=
    fun x => congrArg TxLinks.parents (linksAt_of_mapLinks hlowLinks x)
  have hchildren : ∀ x, low.getMemPoolChildren x = pool.getMemPoolChildren x :=
    fun x => congrArg TxLinks.children (linksAt_of_mapLinks hlowLinks x)
  -- The ancestors.
  obtain ⟨mid, hmid, hdetached⟩ := exists_foldlM_inOrder (P := fun done cur => Detached low cur done) (S := stage) _
    (fun cur done r hr hnew h => h.step hlinkedLow (hD.of_shifted hlowShift hlowLinks) hslackD (hmemLow r hr) hnew)
    (Detached.refl low)
  -- The links from the children.
  have hunparented := foldl_inOrder (P := fun done cur => Unparented mid cur done) (S := stage)
    (fun cur r => cur.updateChildrenForRemoval r) (by
      intro cur done r _ _ h
      refine h.step ?_ r
      intro r x hx
      rw [hdetached.children] at hx
      rw [hdetached.domain, hlinkedLow.domain]
      exact Finmap.mem_keys.mp (hlinkedLow.children_sub r (mem_sdiff.mp hx).1)) (Unparented.refl mid)
  generalize hcut : stage.inOrder.foldl (fun pool removeIt => pool.updateChildrenForRemoval removeIt) mid = cut
  rw [show stage.inOrder.foldl (fun cur r => cur.updateChildrenForRemoval r) mid = cut from hcut] at hunparented
  have hshift := (hlowShift.trans hdetached.shifted).trans hunparented.shifted
  have herased := foldl_inOrder (P := fun done cur => Erased cut cur done) (S := stage)
    (fun cur r => cur.removeUnchecked r)
    (fun cur done r hr hnew h => h.step ((hshift.mem_iff r).mpr (hmem r hr)) hnew) (Erased.refl cut)
  generalize hlast : stage.inOrder.foldl (fun cur r => cur.removeUnchecked r) cut = last at herased
  have hcore : ∀ it e, pool.coreAt it = some e → ∃ e', cut.coreAt it = some e' ∧ e'.tx = e.tx := by
    intro it e he
    exact ⟨_, hshift.coreAt he, rfl⟩
  have hcore' : ∀ it e', cut.coreAt it = some e' → ∃ e, pool.coreAt it = some e ∧ e'.tx = e.tx := by
    intro it e' he'
    obtain ⟨e, he, rfl⟩ := hshift.exists_coreAt he'
    exact ⟨e, he, rfl⟩
  have hvalue : ∀ {f : CTxMemPoolEntry sha256 → ℤ}, (∀ e, f e.core = f e) → (∀ e d a, f (e.shift d a) = f e) →
      ∀ it ∈ stage, cut.valueAt f it = pool.valueAt f it := by
    intro f hf hf' it hit
    obtain ⟨e, he⟩ := exists_coreAt (hmem it hit)
    rw [valueAt_eq_of_core hf (hshift.coreAt he), hf', valueAt_eq_of_core hf he]
  refine ⟨last, ?_, ?_⟩
  · unfold removeStaged updateForRemoveFromMempool
    rw [hlow]
    dsimp only [bind, Option.bind]
    rw [hmid]
    dsimp only [pure]
    rw [hcut, hlast]
  · refine ⟨?_, herased.gone, ⟨?_, ?_, ?_⟩, ?_, ?_, ?_, ?_, ?_, ?_, ?_⟩
    · intro it hit
      rw [herased.entries it hit, hshift.entries]
      simp only [Pi.add_apply, Pi.zero_apply, zero_add, add_zero, (hclosures it).1, hlowShift.descendantShareAt,
        inter_erase_eq hit]
    · intro x hx
      have hlast' : last.getMemPoolParents x = cut.getMemPoolParents x :=
        congrArg (fun links => (Option.getD links ⟨∅, ∅⟩).parents) (herased.links x hx)
      rw [hlast', hunparented.parents, hdetached.parents, hparents]
      ext r
      rw [mem_sdiff, mem_sdiff, mem_filter, hdetached.children, hchildren, mem_sdiff,
        hlinked.dag.symm]
      tauto
    · intro x hx
      have hlast' : last.getMemPoolChildren x = cut.getMemPoolChildren x :=
        congrArg (fun links => (Option.getD links ⟨∅, ∅⟩).children) (herased.links x hx)
      rw [hlast', hunparented.children, hdetached.children, hchildren]
    · intro x hx
      unfold getMemPoolParents getMemPoolChildren linksAt
      rw [herased.linksGone x hx]
      exact ⟨rfl, rfl⟩
    · intro it
      by_cases hit : it ∈ stage
      · rw [← Finmap.lookup_isSome, herased.linksGone it hit]
        simp [hit]
      · rw [← Finmap.lookup_isSome, herased.links it hit, Finmap.lookup_isSome, hunparented.domain,
          hdetached.domain, hlowLinks]
        simp [hit]
    · intro it hit e he txin htxin
      obtain ⟨e', he', htx⟩ := hcore it e he
      exact herased.nextGone it hit e' he' txin (htx ▸ htxin)
    · intro o ho
      rw [herased.nextKept o, hshift.mapNextTx]
      intro it hit e' he' txin htxin
      obtain ⟨e, he, htx⟩ := hcore' it e' he'
      exact ho it hit e he txin (htx ▸ htxin)
    · intro o tx htx
      have h := herased.nextSub o tx htx
      rwa [hshift.mapNextTx] at h
    · exact herased.mapDeltas.trans hshift.mapDeltas
    · rw [herased.totalTxSize, hshift.totalTxSize,
        sum_congr rfl (hvalue (fun _ => rfl) (fun _ _ _ => rfl))]
    · rw [herased.balance, hshift.balance, sum_congr rfl (hvalue (fun _ => rfl) (fun _ _ _ => rfl))]

end Staged

end CTxMemPool

end MutableBitcoin
