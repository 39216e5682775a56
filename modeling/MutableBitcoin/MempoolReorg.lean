import MutableBitcoin.MempoolExact

/-!
# Transactions of disconnected blocks

A transaction of a disconnected block is added while its children may be in the pool.
`UpdateTransactionsFromBlock` makes the links to them later.
-/

namespace MutableBitcoin
open Lib List Finset Prod

namespace CTxMemPool

variable {sha256 : Bytes → Uint256}

section Spenders

variable {pool : CTxMemPool sha256}

def trueChildren (pool : CTxMemPool sha256) (it : Uint256) : SetEntries :=
  if it ∈ pool.mapTx then pool.spendersOf it else ∅

lemma Consistent.mem_spendersOf (h : Consistent pool) {x y : Uint256} :
    y ∈ pool.spendersOf x ↔ ∃ e, pool.coreAt y = some e ∧ ∃ txin ∈ e.tx.vin, txin.prevout.hash = x := by
  unfold spendersOf
  rw [mem_biUnion]
  constructor
  · rintro ⟨o, ho, hy⟩
    obtain ⟨-, hhash⟩ := mem_filter.mp ho
    cases hnext : pool.mapNextTx.lookup o with
    | none =>
      rw [hnext] at hy
      exact absurd hy (notMem_empty y)
    | some tx =>
      rw [hnext] at hy
      have hy : y = tx.hash := Finset.mem_singleton.mp hy
      obtain ⟨it, e, he, rfl, txin, htxin, heq⟩ := (h.next o tx).mp hnext
      rw [hy, h.linked.ids it e he]
      exact ⟨e, he, txin, htxin, by rw [heq, hhash]⟩
  · rintro ⟨e, he, txin, htxin, hhash⟩
    have hnext := (h.next txin.prevout e.tx).mpr ⟨y, e, he, rfl, txin, htxin, rfl⟩
    refine ⟨txin.prevout, mem_filter.mpr ⟨?_, hhash⟩, ?_⟩
    · rw [Finmap.mem_keys, ← Finmap.lookup_isSome, hnext]
      rfl
    · rw [hnext]
      exact Finset.mem_singleton.mpr (h.linked.ids y e he).symm

lemma Consistent.mem_trueChildren (h : Consistent pool) {x y : Uint256} :
    y ∈ pool.trueChildren x ↔ pool.Spends y x := by
  unfold trueChildren
  split_ifs with hx
  · rw [h.mem_spendersOf]
    exact ⟨fun hy => ⟨hx, hy⟩, fun hy => hy.2⟩
  · exact ⟨fun hy => absurd hy (notMem_empty y), fun hy => absurd hy.1 hx⟩

lemma mem_of_spends {child parent : Uint256} (h : pool.Spends child parent) :
    child ∈ pool.mapTx ∧ parent ∈ pool.mapTx := by
  obtain ⟨hparent, e, he, -⟩ := h
  exact ⟨mem_of_coreAt he, hparent⟩

end Spenders

section Attach

variable {pool : CTxMemPool sha256}

def attachChildren (pool : CTxMemPool sha256) (it : Uint256) (l : List Uint256) : CTxMemPool sha256 :=
  l.foldl (fun pool child => (pool.updateChild it child true).updateParent child it true) pool

lemma linksAt_attachChildren (pool : CTxMemPool sha256) {it : Uint256} {l : List Uint256} (hit : it ∉ l) (x : Uint256) :
    (pool.attachChildren it l).linksAt x =
      ⟨if x ∈ l then insert it (pool.linksAt x).parents else (pool.linksAt x).parents,
        if x = it then (pool.linksAt x).children ∪ l.toFinset else (pool.linksAt x).children⟩ := by
  unfold attachChildren
  induction l generalizing pool with
  | nil => simp
  | cons child l ih =>
    obtain ⟨hne, hit⟩ := not_or.mp (fun h => hit (mem_cons.mpr h))
    rw [foldl_cons, ih _ hit, linksAt_updateParent, linksAt_updateChild]
    by_cases hx : x = it
    · subst hx
      simp [hne, hit]
    · by_cases hchild : x = child
      · subst hchild
        simp [hx]
      · simp [hx, hchild]

lemma mem_mapLinks_attachChildren {it : Uint256} {l : List Uint256} (hit : it ∈ pool.mapLinks)
    (hl : ∀ child ∈ l, child ∈ pool.mapLinks) (x : Uint256) :
    x ∈ (pool.attachChildren it l).mapLinks ↔ x ∈ pool.mapLinks := by
  unfold attachChildren
  induction l generalizing pool with
  | nil => rfl
  | cons child l ih =>
    have hstep : ∀ y, y ∈ ((pool.updateChild it child true).updateParent child it true).mapLinks ↔
        y ∈ pool.mapLinks := by
      intro y
      rw [mem_mapLinks_updateParent, mem_mapLinks_updateChild]
      constructor
      · rintro (rfl | rfl | hy)
        · exact hl y mem_cons_self
        · exact hit
        · exact hy
      · exact fun hy => Or.inr (Or.inr hy)
    rw [foldl_cons, ih ((hstep it).mpr hit) fun c hc => (hstep c).mpr (hl c (mem_cons_of_mem _ hc)), hstep]

lemma shifted_attachChildren (it : Uint256) (l : List Uint256) : Shifted pool (pool.attachChildren it l) 0 0 := by
  apply shifted_foldl
  intro pool child
  have h := (shifted_updateChild pool it child true).trans
    (shifted_updateParent (pool.updateChild it child true) child it true)
  rwa [add_zero, add_zero] at h

lemma descendantLoop_eq (cachedDescendants : CacheMap) (fuel : ℕ) (stageEntries setAllDescendants : SetEntries) :
    pool.descendantLoop cachedDescendants fuel stageEntries setAllDescendants =
      cachedSearch SetEntries.first SetEntries.inOrder pool.getMemPoolChildren (cachedDescendants.lookup ·) fuel
        stageEntries setAllDescendants := by
  have hstage : stageChild cachedDescendants = stageNext (cachedDescendants.lookup ·) := by
    funext st childEntry
    unfold stageChild stageNext
    dsimp only
    cases cachedDescendants.lookup childEntry <;> rfl
  induction fuel generalizing stageEntries setAllDescendants with
  | zero => rfl
  | succ fuel ih =>
    unfold descendantLoop cachedSearch
    cases stageEntries.first with
    | none => rfl
    | some cit =>
      dsimp only
      rw [ih, hstage]

end Attach

section Reattach

variable {pool cur : CTxMemPool sha256} {R done : SetEntries} {cache : CacheMap}

/-- The books of a pool whose entries `R` were added while their children were there. -/
structure Readded (pool : CTxMemPool sha256) (R : SetEntries) : Prop extends Booked pool where
  sub : R ⊆ pool.mapTx.keys
  children : ∀ {x y}, y ∈ pool.getMemPoolChildren x ↔ pool.Spends y x ∧ ¬ (x ∈ R ∧ y ∉ R)

/-- What an entry of `R` reaches among the other entries. -/
noncomputable def gained (pool : CTxMemPool sha256) (R : SetEntries) (b : Uint256) : SetEntries :=
  below pool.mapTx.keys pool.trueChildren b \ R

/-- The entries `done` are linked to their children and count what they reach. -/
structure Reattached (pool cur : CTxMemPool sha256) (cache : CacheMap) (R done : SetEntries) : Prop where
  shifted : Shifted pool cur (fun x => if x ∈ done then ∑ y ∈ pool.gained R x, pool.descendantShareAt y else 0)
    (fun x => ∑ b ∈ done with x ∈ pool.gained R b, pool.ancestorShareAt b)
  children : ∀ x, cur.getMemPoolChildren x = if x ∈ done then pool.trueChildren x else pool.getMemPoolChildren x
  parents : ∀ x, cur.getMemPoolParents x = pool.getMemPoolParents x ∪ {b ∈ done | x ∈ pool.trueChildren b}
  domain : ∀ it, it ∈ cur.mapLinks ↔ it ∈ pool.mapLinks
  cache : ∀ c cached, cache.lookup c = some cached → c ∈ done ∧ cached = pool.gained R c

lemma Reattached.refl (pool : CTxMemPool sha256) (R : SetEntries) : Reattached pool pool ∅ R ∅ := by
  refine ⟨(Shifted.refl pool).congr ?_ ?_, ?_, ?_, fun _ => Iff.rfl, ?_⟩
  · intro it _
    simp
  · intro it _
    simp
  · intro x
    simp
  · intro x
    simp
  · intro c cached hc
    cases hc

lemma Readded.trueChildren_eq (hread : Readded pool R) {x : Uint256} (hx : x ∉ R) :
    pool.getMemPoolChildren x = pool.trueChildren x := by
  ext y
  rw [hread.children, hread.consistent.mem_trueChildren]
  simp [hx]

lemma Readded.trueChildren_union (hread : Readded pool R) {x : Uint256} :
    pool.getMemPoolChildren x ∪ pool.trueChildren x \ R = pool.trueChildren x := by
  ext y
  rw [mem_union, mem_sdiff, hread.children, hread.consistent.mem_trueChildren]
  constructor
  · rintro (⟨hy, -⟩ | ⟨hy, -⟩)
    · exact hy
    · exact hy
  · intro hy
    by_cases hyR : y ∈ R
    · exact Or.inl ⟨hy, fun h => h.2 hyR⟩
    · exact Or.inr ⟨hy, hyR⟩

lemma Reattached.attach (hread : Readded pool R) (hself : ∀ x, x ∉ pool.trueChildren x)
    (h : Reattached pool cur cache R done) {b : Uint256} (hb : b ∈ R) (hnew : b ∉ done) {linked : CTxMemPool sha256}
    (hlinked : cur.attachChildren b ((cur.spendersOf b).inOrder.filter (· ∉ R)) = linked) :
    Shifted pool linked (fun x => if x ∈ done then ∑ y ∈ pool.gained R x, pool.descendantShareAt y else 0)
      (fun x => ∑ b ∈ done with x ∈ pool.gained R b, pool.ancestorShareAt b) ∧
    (∀ x, linked.getMemPoolChildren x =
      if x ∈ insert b done then pool.trueChildren x else pool.getMemPoolChildren x) ∧
    (∀ x, linked.getMemPoolParents x =
      pool.getMemPoolParents x ∪ {b' ∈ insert b done | x ∈ pool.trueChildren b'}) ∧
    ∀ it, it ∈ linked.mapLinks ↔ it ∈ pool.mapLinks := by
  have hmem : b ∈ pool.mapTx := Finmap.mem_keys.mp (hread.sub hb)
  have hspenders : cur.spendersOf b = pool.trueChildren b := by
    unfold trueChildren
    rw [if_pos hmem]
    unfold spendersOf
    rw [h.shifted.mapNextTx]
  rw [hspenders] at hlinked
  have hlist : ∀ x, x ∈ (pool.trueChildren b).inOrder.filter (· ∉ R) ↔ x ∈ pool.trueChildren b ∧ x ∉ R := by
    intro x
    rw [mem_filter, SetEntries.mem_inOrder]
    simp
  have hset : ((pool.trueChildren b).inOrder.filter (· ∉ R)).toFinset = pool.trueChildren b \ R := by
    ext x
    rw [mem_toFinset, hlist, mem_sdiff]
  have hnot : b ∉ (pool.trueChildren b).inOrder.filter (· ∉ R) := fun hmem => hself b ((hlist b).mp hmem).1
  have hlinks := linksAt_attachChildren cur hnot
  rw [hlinked] at hlinks
  refine ⟨?_, ?_, ?_, ?_⟩
  · have hshift := h.shifted.trans (shifted_attachChildren b ((pool.trueChildren b).inOrder.filter (· ∉ R)))
    rwa [hlinked, add_zero, add_zero] at hshift
  · intro x
    rw [getMemPoolChildren, hlinks]
    change (if x = b then cur.getMemPoolChildren x ∪ _ else cur.getMemPoolChildren x) = _
    rw [h.children, hset]
    by_cases hx : x = b
    · subst hx
      rw [if_pos rfl, if_neg hnew, if_pos (mem_insert_self x done), hread.trueChildren_union]
    · rw [if_neg hx]
      simp [hx]
  · intro x
    rw [getMemPoolParents, hlinks]
    change (if _ then insert b (cur.getMemPoolParents x) else cur.getMemPoolParents x) = _
    rw [h.parents, filter_insert]
    by_cases hx : x ∈ pool.trueChildren b
    · rw [if_pos hx]
      by_cases hxR : x ∈ R
      · -- The link is there since both were added.
        rw [if_neg fun hmem => ((hlist x).mp hmem).2 hxR, union_insert, insert_eq_of_mem]
        apply Finset.mem_union_left
        rw [hread.linked.dag.symm, hread.children]
        exact ⟨hread.consistent.mem_trueChildren.mp hx, fun hout => hout.2 hxR⟩
      · rw [if_pos ((hlist x).mpr ⟨hx, hxR⟩), union_insert]
    · rw [if_neg hx, if_neg fun hmem => hx ((hlist x).mp hmem).1]
  · intro it
    rw [← hlinked, mem_mapLinks_attachChildren, h.domain]
    · rw [h.domain, hread.linked.domain]
      exact hmem
    · intro child hchild
      rw [h.domain, hread.linked.domain]
      exact (mem_of_spends (hread.consistent.mem_trueChildren.mp ((hlist child).mp hchild).1)).1

lemma Consistent.trueChildren_sub (h : Consistent pool) (x : Uint256) :
    pool.trueChildren x ⊆ pool.mapTx.keys := by
  intro y hy
  exact Finmap.mem_keys.mpr (mem_of_spends (h.mem_trueChildren.mp hy)).1

lemma Consistent.mem_gained (h : Consistent pool) {b y : Uint256} (hb : b ∈ pool.mapTx) :
    y ∈ pool.gained R b ↔ y ∉ R ∧ Reaches pool.trueChildren b y := by
  unfold gained
  rw [mem_sdiff, mem_below, and_comm]
  refine and_congr_right' ⟨fun hy => hy.2, fun hreach => ⟨?_, hreach⟩⟩
  obtain rfl | ⟨z, -, hz⟩ := Relation.ReflTransGen.cases_tail hreach
  · exact Finmap.mem_keys.mpr hb
  · exact h.trueChildren_sub z hz

lemma Readded.counted_eq (hread : Readded pool R) {linked : CTxMemPool sha256}
    (hkeys : linked.mapTx.keys = pool.mapTx.keys) {b : Uint256} (hb : b ∈ R) (hdone : done ⊆ R)
    (hclosed : ∀ c ∈ insert b done, ∀ r ∈ R, Reaches pool.trueChildren c r → r ∈ insert b done)
    (hchildren : ∀ x, linked.getMemPoolChildren x =
      if x ∈ insert b done then pool.trueChildren x else pool.getMemPoolChildren x)
    (hcache : ∀ c cached, cache.lookup c = some cached → c ∈ done ∧ cached = pool.gained R c) :
    (linked.descendantLoop cache linked.mapTx.keys.card (linked.getMemPoolChildren b) ∅).filter (· ∉ R) =
      pool.gained R b := by
  have hmem : ∀ {c}, c ∈ R → c ∈ pool.mapTx := fun hc => Finmap.mem_keys.mp (hread.sub hc)
  have hreach : ∀ c ∈ insert b done, ∀ y, Reaches linked.getMemPoolChildren c y ↔ Reaches pool.trueChildren c y := by
    intro c hc y
    apply reaches_congr
    intro x hx
    rw [hchildren]
    split_ifs with hxdone
    · rfl
    · exact hread.trueChildren_eq fun hxR => hxdone (hclosed c hc x hxR hx)
  have hsub : ∀ x, linked.getMemPoolChildren x ⊆ linked.mapTx.keys := by
    intro x
    rw [hkeys, hchildren]
    split_ifs
    · exact hread.consistent.trueChildren_sub x
    · exact hread.linked.children_sub x
  rw [descendantLoop_eq]
  ext y
  rw [Finset.mem_filter, hread.consistent.mem_gained (hmem hb), and_comm]
  apply and_congr_right
  intro hy
  rw [mem_cachedSearch_iff SetEntries.takes_first (fun _ _ => SetEntries.mem_inOrder) (fun x _ => hsub x) ?_
    (hsub b) hy, ← hreach b (mem_insert_self b done)]
  · constructor
    · rintro ⟨s, hs, hsy⟩
      exact Relation.ReflTransGen.head hs hsy
    · intro hby
      obtain rfl | ⟨s, hs, hsy⟩ := Relation.ReflTransGen.cases_head hby
      · exact absurd hb hy
      · exact ⟨s, hs, hsy⟩
  · intro c cached hc z
    obtain ⟨hcdone, rfl⟩ := hcache c cached hc
    rw [hreach c (mem_insert_of_mem hcdone), hread.consistent.mem_gained (hmem (hdone hcdone))]

lemma sum_descendantShareAt {s : SetEntries} (hs : s ⊆ pool.mapTx.keys) :
    ((s.inOrder.map (pool.valueAt (·.getTxSize))).sum, (s.inOrder.map (pool.valueAt (·.getModifiedFee))).sum,
      (s.card : ℤ)) = ∑ y ∈ s, pool.descendantShareAt y := by
  have hshare : ∀ y ∈ s, pool.descendantShareAt y =
      (pool.valueAt (·.getTxSize) y, pool.valueAt (·.getModifiedFee) y, 1) := by
    intro y hy
    obtain ⟨e, he⟩ := exists_coreAt (Finmap.mem_keys.mp (hs hy))
    rw [descendantShareAt_eq he, valueAt_eq_of_core (fun _ => rfl) he, valueAt_eq_of_core (fun _ => rfl) he]
    rfl
  rw [sum_congr rfl hshare, sum_inOrder, sum_inOrder]
  ext <;> simp [fst_sum, snd_sum]

lemma sum_descendantShareAt_nonneg (pool : CTxMemPool sha256) (s : SetEntries) :
    0 ≤ (∑ y ∈ s, pool.descendantShareAt y).1 ∧ 0 ≤ (∑ y ∈ s, pool.descendantShareAt y).2.2 := by
  simp only [fst_sum, snd_sum]
  exact ⟨sum_nonneg fun y _ => (descendantShareAt_nonneg pool y).1,
    sum_nonneg fun y _ => (descendantShareAt_nonneg pool y).2⟩

lemma sum_ancestorShareAt_nonneg (pool : CTxMemPool sha256) (s : SetEntries) :
    0 ≤ (∑ y ∈ s, pool.ancestorShareAt y).1 ∧ 0 ≤ (∑ y ∈ s, pool.ancestorShareAt y).2.2.1 ∧
      0 ≤ (∑ y ∈ s, pool.ancestorShareAt y).2.2.2 := by
  simp only [fst_sum, snd_sum]
  exact ⟨sum_nonneg fun y _ => (ancestorShareAt_nonneg pool y).1,
    sum_nonneg fun y _ => (ancestorShareAt_nonneg pool y).2.1,
    sum_nonneg fun y _ => (ancestorShareAt_nonneg pool y).2.2⟩

lemma Reattached.exists_counters (hread : Readded pool R) {linked : CTxMemPool sha256} {b : Uint256}
    (hb : b ∈ R) (hnew : b ∉ done)
    (hshift : Shifted pool linked (fun x => if x ∈ done then ∑ y ∈ pool.gained R x, pool.descendantShareAt y else 0)
      (fun x => ∑ b ∈ done with x ∈ pool.gained R b, pool.ancestorShareAt b)) :
    ∃ mid next, linked.modifyAll (pool.gained R b) (CTxMemPoolEntry.updateAncestorState
        (linked.valueAt (·.getTxSize) b) (linked.valueAt (·.getModifiedFee) b) 1
        (linked.valueAt (·.sigOpCost) b)) = some mid ∧
      mid.modify b (CTxMemPoolEntry.updateDescendantState
        ((pool.gained R b).inOrder.map (linked.valueAt (·.getTxSize))).sum
        ((pool.gained R b).inOrder.map (linked.valueAt (·.getModifiedFee))).sum (pool.gained R b).card) = some next ∧
      next.mapLinks = linked.mapLinks ∧
      Shifted pool next
        (fun x => if x ∈ insert b done then ∑ y ∈ pool.gained R x, pool.descendantShareAt y else 0)
        (fun x => ∑ b' ∈ insert b done with x ∈ pool.gained R b', pool.ancestorShareAt b') := by
  obtain ⟨e, he⟩ := exists_coreAt (Finmap.mem_keys.mp (hread.sub hb))
  have he' := hshift.coreAt he
  have hshare : (linked.valueAt (·.getTxSize) b, linked.valueAt (·.getModifiedFee) b, (1 : ℤ),
      linked.valueAt (·.sigOpCost) b) = pool.ancestorShareAt b := by
    rw [valueAt_eq_of_core (fun _ => rfl) he', valueAt_eq_of_core (fun _ => rfl) he',
      valueAt_eq_of_core (fun _ => rfl) he', ancestorShareAt_eq he]
    rfl
  obtain ⟨mid, hmid, hlinksMid, hshiftMid⟩ := exists_modifyAll_ancestorState linked (pool.gained R b)
    (pool.ancestorShareAt b) (by
      intro x _ ex' hex'
      obtain ⟨ex, hex, rfl⟩ := hshift.exists_coreAt hex'
      have hpos := hread.ancestorState_pos hex
      have hsum := sum_ancestorShareAt_nonneg pool (done.filter (x ∈ pool.gained R ·))
      have hown := ancestorShareAt_nonneg pool b
      simp only [CTxMemPoolEntry.ancestorState_shift, fst_add, snd_add]
      exact ⟨by linarith, by linarith, by linarith⟩)
  have hshiftMid' := hshift.trans hshiftMid
  have hsub : pool.gained R b ⊆ linked.mapTx.keys := by
    rw [hshift.keys]
    intro y hy
    exact (mem_below.mp (mem_sdiff.mp hy).1).1
  have htotal : (((pool.gained R b).inOrder.map (linked.valueAt (·.getTxSize))).sum,
      ((pool.gained R b).inOrder.map (linked.valueAt (·.getModifiedFee))).sum, ((pool.gained R b).card : ℤ)) =
      ∑ y ∈ pool.gained R b, pool.descendantShareAt y := by
    rw [sum_descendantShareAt hsub]
    exact sum_congr rfl fun y _ => hshift.descendantShareAt y
  obtain ⟨next, hnext, hlinksNext, hshiftNext⟩ := exists_modifyAll_descendantState mid {b}
    (∑ y ∈ pool.gained R b, pool.descendantShareAt y) (by
      intro x hx ex' hex'
      obtain ⟨ex, hex, rfl⟩ := hshiftMid'.exists_coreAt hex'
      have hpos := hread.descendantState_pos hex
      have hsum := sum_descendantShareAt_nonneg pool (pool.gained R b)
      rw [Finset.mem_singleton.mp hx] at *
      simp only [CTxMemPoolEntry.descendantState_shift, fst_add, snd_add, Pi.add_apply, if_neg hnew,
        Pi.zero_apply, add_zero]
      exact ⟨by linarith, by linarith⟩)
  rw [modifyAll_singleton, ← htotal] at hnext
  rw [← hshare] at hmid
  refine ⟨mid, next, hmid, hnext, hlinksNext.trans hlinksMid, (hshiftMid'.trans hshiftNext).congr ?_ ?_⟩
  · intro x _
    by_cases hx : x = b
    · simp [hx, hnew]
    · simp [hx]
  · intro x _
    rw [filter_insert]
    split_ifs with hx
    · rw [sum_insert fun h => hnew (mem_filter.mp h).1]
      simp [hx, add_comm]
    · simp [hx]

lemma Reattached.step (hread : Readded pool R) (hself : ∀ x, x ∉ pool.trueChildren x)
    (h : Reattached pool cur cache R done) (hdone : done ⊆ R) {b : Uint256} (hb : b ∈ R) (hnew : b ∉ done)
    (hclosed : ∀ c ∈ insert b done, ∀ r ∈ R, Reaches pool.trueChildren c r → r ∈ insert b done) :
    ∃ next, updateTransactionFromBlock R (cur, cache) b = some next ∧
      Reattached pool next.1 next.2 R (insert b done) := by
  obtain ⟨linked, hlinked⟩ : ∃ linked,
      cur.attachChildren b ((cur.spendersOf b).inOrder.filter (· ∉ R)) = linked := ⟨_, rfl⟩
  obtain ⟨hshift, hchildren, hparents, hdomain⟩ := h.attach hread hself hb hnew hlinked
  have hcounted := hread.counted_eq hshift.keys hb hdone hclosed hchildren h.cache
  obtain ⟨mid, next, hmid, hnext, hlinks, hshiftNext⟩ := Reattached.exists_counters hread hb hnew hshift
  have hmem : b ∈ cur.mapTx := (h.shifted.mem_iff b).mpr (Finmap.mem_keys.mp (hread.sub hb))
  have hspenders : ∀ child ∈ cur.spendersOf b, child ∈ cur.mapTx := by
    intro child hchild
    have hsame : cur.spendersOf b = pool.spendersOf b := by
      unfold spendersOf
      rw [h.shifted.mapNextTx]
    rw [hsame, hread.consistent.mem_spendersOf] at hchild
    obtain ⟨e, he, -⟩ := hchild
    exact (h.shifted.mem_iff child).mpr (mem_of_coreAt he)
  have hnone : cache.lookup b = none := by
    cases hb : cache.lookup b with
    | none => rfl
    | some cached => exact absurd (h.cache b cached hb).1 hnew
  refine ⟨(next, if pool.gained R b = ∅ then cache else cache.insert b (pool.gained R b)), ?_, hshiftNext, ?_, ?_,
    ?_, ?_⟩
  · unfold updateTransactionFromBlock
    dsimp only
    rw [if_pos hmem, if_pos hspenders]
    change (cur.attachChildren b _).updateForDescendants b cache R = _
    rw [hlinked]
    unfold updateForDescendants
    dsimp only
    rw [hcounted, hmid]
    dsimp only [bind, Option.bind]
    rw [hnext, hnone, Option.getD_none, empty_union]
    rfl
  · intro x
    rw [← hchildren x]
    exact congrArg TxLinks.children (linksAt_of_mapLinks hlinks x)
  · intro x
    rw [← hparents x]
    exact congrArg TxLinks.parents (linksAt_of_mapLinks hlinks x)
  · intro it
    rw [hlinks, hdomain]
  · intro c cached hc
    dsimp only at hc
    split_ifs at hc
    · obtain ⟨hcdone, hcached⟩ := h.cache c cached hc
      exact ⟨mem_insert_of_mem hcdone, hcached⟩
    · rw [lookup_insert_apply] at hc
      split_ifs at hc with hcb
      · rw [hcb, ← Option.some.inj hc]
        exact ⟨mem_insert_self b done, rfl⟩
      · obtain ⟨hcdone, hcached⟩ := h.cache c cached hc
        exact ⟨mem_insert_of_mem hcdone, hcached⟩

lemma Readded.exists_updateTransactionsFromBlock (hread : Readded pool R) (hself : ∀ x, x ∉ pool.trueChildren x)
    (hrejoin : Rejoined R pool.getMemPoolChildren pool.trueChildren) {vHashesToUpdate : List Uint256}
    (hnodup : vHashesToUpdate.Nodup) (hlist : vHashesToUpdate.toFinset = R)
    (hfirst : vHashesToUpdate.Pairwise (fun h h' => ¬ pool.Spends h h')) :
    ∃ next cache, pool.updateTransactionsFromBlock vHashesToUpdate = some next ∧ Reattached pool next cache R R := by
  -- The loop has done the end of the list when it comes to an id, and so its children of the list.
  have hloop : ∀ (front behind : List Uint256) (st : CTxMemPool sha256 × CacheMap),
      front ++ behind = vHashesToUpdate → Reattached pool st.1 st.2 R behind.toFinset →
      ∃ next, front.reverse.foldlM (updateTransactionFromBlock R) st = some next ∧
        Reattached pool next.1 next.2 R R := by
    intro front
    induction front using List.reverseRecOn with
    | nil =>
      intro behind st hsplit h
      rw [nil_append] at hsplit
      rw [hsplit, hlist] at h
      exact ⟨st, rfl, h⟩
    | append_singleton front b ih =>
      intro behind st hsplit h
      have hsplit' : front ++ b :: behind = vHashesToUpdate := by
        rw [← hsplit, append_assoc]
        rfl
      have hmemR : ∀ x ∈ b :: behind, x ∈ R := by
        intro x hx
        rw [← hlist, mem_toFinset, ← hsplit']
        exact mem_append_right front hx
      have hnew : b ∉ behind := by
        rw [← hsplit'] at hnodup
        exact (nodup_cons.mp (nodup_append.mp hnodup).2.1).1
      have hdone : insert b behind.toFinset ⊆ R := by
        intro x hx
        rw [← toFinset_cons, mem_toFinset] at hx
        exact hmemR x hx
      have hclosed : ∀ c ∈ insert b behind.toFinset, ∀ r ∈ R, Reaches pool.trueChildren c r →
          r ∈ insert b behind.toFinset := by
        intro c hc r hr hreach
        refine hrejoin.closed hdone ?_ hc hr hreach
        intro z hz w hw hzw
        have hspends := hread.consistent.mem_trueChildren.mp hzw
        rw [← toFinset_cons, mem_toFinset] at hz ⊢
        rw [← hlist, mem_toFinset, ← hsplit'] at hw
        obtain hw | hw := mem_append.mp hw
        · rw [← hsplit'] at hfirst
          exact absurd hspends ((pairwise_append.mp hfirst).2.2 w hw z hz)
        · exact hw
      obtain ⟨next, hnext, hstep⟩ := h.step hread hself ((Finset.subset_insert _ _).trans hdone)
        (hmemR b mem_cons_self) (fun hmem => hnew (mem_toFinset.mp hmem)) hclosed
      rw [← toFinset_cons] at hstep
      obtain ⟨final, hfinal, hall⟩ := ih (b :: behind) next hsplit' hstep
      refine ⟨final, ?_, hall⟩
      rw [reverse_append, reverse_singleton, singleton_append, foldlM_cons, hnext]
      exact hfinal
  obtain ⟨next, hnext, hall⟩ := hloop vHashesToUpdate [] (pool, ∅) (append_nil _) (by
    simpa using Reattached.refl pool R)
  refine ⟨next.1, next.2, ?_, hall⟩
  unfold updateTransactionsFromBlock
  rw [hlist, hnext]
  rfl

lemma Reattached.accounting (hread : Readded pool R) (hacyclic : ∀ x, ¬ Relation.TransGen pool.Spends x x)
    (hrejoin : Rejoined R pool.getMemPoolChildren pool.trueChildren) (h : Reattached pool cur cache R R) :
    Accounting cur := by
  have hcons := hread.consistent
  have hchildren : cur.getMemPoolChildren = pool.trueChildren := by
    funext x
    rw [h.children]
    split_ifs with hx
    · rfl
    · exact hread.trueChildren_eq hx
  have hspends : ∀ {x y}, y ∈ pool.trueChildren x ↔ pool.Spends y x := hcons.mem_trueChildren
  have hparents : ∀ x y, x ∈ cur.getMemPoolParents y ↔ pool.Spends y x := by
    intro x y
    rw [h.parents, Finset.mem_union, Finset.mem_filter, hread.linked.dag.symm, hread.children, hspends]
    constructor
    · rintro (⟨hy, -⟩ | ⟨-, hy⟩)
      · exact hy
      · exact hy
    · intro hy
      by_cases hx : x ∈ R
      · exact Or.inr ⟨hx, hy⟩
      · exact Or.inl ⟨hy, fun hout => hx hout.1⟩
  have hdag : Dag cur.mapTx.keys cur.getMemPoolParents cur.getMemPoolChildren := by
    rw [hchildren, h.shifted.keys]
    refine ⟨?_, ?_, ?_⟩
    · intro x y hy
      obtain ⟨hchild, hparent⟩ := mem_of_spends (hspends.mp hy)
      exact ⟨Finmap.mem_keys.mpr hparent, Finmap.mem_keys.mpr hchild⟩
    · intro x y
      rw [hparents, hspends]
    · intro x y hy hreach
      have hback : Relation.ReflTransGen pool.Spends x y := by
        apply Relation.reflTransGen_swap.mp
        exact Relation.ReflTransGen.mono (fun a b hab => hspends.mp hab) _ _ hreach
      exact hacyclic y (Relation.TransGen.head' (hspends.mp hy) hback)
  have hdescendants : ∀ it, cur.descendants it = below pool.mapTx.keys pool.trueChildren it := by
    intro it
    rw [descendants, hchildren, h.shifted.keys]
  have hancestors : ∀ it, cur.ancestors it = above pool.mapTx.keys pool.trueChildren it := by
    intro it
    rw [ancestors, hchildren, h.shifted.keys]
  refine ⟨⟨⟨hdag, ?_, ?_⟩, ?_, ⟨?_, ?_⟩, ?_, ?_, ?_⟩, ?_⟩
  · intro it
    rw [h.domain, hread.linked.domain, h.shifted.mem_iff]
  · intro it e' he'
    obtain ⟨e, he, rfl⟩ := h.shifted.exists_coreAt he'
    exact hread.linked.ids it e he
  · intro o tx
    rw [h.shifted.mapNextTx, hread.next]
    exact exists_congr fun it =>
      (h.shifted.exists_tx_iff fun t => t = tx ∧ ∃ txin ∈ tx.vin, txin.prevout = o).symm
  · intro it e' he'
    obtain ⟨e, he, rfl⟩ := h.shifted.exists_coreAt he'
    have hcount := hread.exact.descendants it e he
    have hsum := hrejoin.sum_below pool.mapTx.keys pool.descendantShareAt it
    rw [Pi.zero_apply, add_zero] at hcount ⊢
    rw [CTxMemPoolEntry.descendantState_shift, hcount, hdescendants,
      sum_congr rfl fun y _ => h.shifted.descendantShareAt y, hsum]
    rfl
  · intro it e' he'
    obtain ⟨e, he, rfl⟩ := h.shifted.exists_coreAt he'
    have hcount := hread.exact.ancestors it e he
    have hsum := hrejoin.sum_above hread.sub pool.ancestorShareAt (Finmap.mem_keys.mpr (mem_of_coreAt he))
    rw [Pi.zero_apply, add_zero] at hcount ⊢
    rw [CTxMemPoolEntry.ancestorState_shift, hcount, hancestors,
      sum_congr rfl fun y _ => h.shifted.ancestorShareAt y, hsum]
    rfl
  · intro it e' he'
    obtain ⟨e, he, rfl⟩ := h.shifted.exists_coreAt he'
    rw [h.shifted.mapDeltas]
    exact hread.deltas it e he
  · rw [h.shifted.totalTxSize, hread.totalTxSize, h.shifted.sum_valueAt (fun _ => rfl) (fun _ _ _ => rfl)]
  · rw [h.shifted.balance, hread.usage, h.shifted.sum_valueAt (fun _ => rfl) (fun _ _ _ => rfl)]
  · intro child parent
    rw [hparents, Spends, Spends, h.shifted.mem_iff]
    exact and_congr_right' (h.shifted.exists_tx_iff fun t => ∃ txin ∈ t.vin, txin.prevout.hash = parent).symm

end Reattach

section Readd

variable {pool : CTxMemPool sha256} {R setAncestors : SetEntries} {entry : CTxMemPoolEntry sha256}

lemma readded_empty_iff : Readded pool ∅ ↔ Accounting pool := by
  constructor
  · intro h
    refine ⟨h.toBooked, fun child parent => ?_⟩
    rw [h.linked.dag.symm, h.children]
    simp
  · intro h
    refine ⟨h.toBooked, empty_subset _, fun {x y} => ?_⟩
    rw [← h.linked.dag.symm, h.parents]
    simp

lemma Readded.addUnchecked (h : Readded pool R) (hfresh : entry.Fresh) (hnew : entry.tx.hash ∉ pool.mapTx)
    (hself : ∀ txin ∈ entry.tx.vin, txin.prevout.hash ≠ entry.tx.hash)
    (hfree : ∀ txin ∈ entry.tx.vin, pool.mapNextTx.lookup txin.prevout = none)
    (hlater : ∀ r ∈ R, ∀ e, pool.coreAt r = some e → ∀ txin ∈ e.tx.vin, txin.prevout.hash ≠ entry.tx.hash)
    (hset : IsAncestorSet pool entry.tx setAncestors) :
    ∃ pool', pool.addUnchecked entry setAncestors = some pool' ∧ Readded pool' (insert entry.tx.hash R) := by
  obtain ⟨pool', e, hpool', hbooked, htx, hadded⟩ := h.toBooked.addUnchecked hfresh hnew hself hfree hset
  rw [← htx] at hnew hself hlater ⊢
  refine ⟨pool', hpool', hbooked, ?_, ?_⟩
  · rw [hadded.keys]
    exact insert_subset_insert _ h.sub
  · intro x y
    rw [← hbooked.linked.dag.symm, hadded.mem_parents_iff h.linked hnew, h.linked.dag.symm, h.children]
    have hnotR : e.tx.hash ∉ R := fun hmem => hnew (Finmap.mem_keys.mp (h.sub hmem))
    by_cases hx : x = e.tx.hash
    · -- Nothing is linked below the new entry, and what spends it is an older entry.
      have hno : ¬ pool.Spends y x := fun hspends => hnew (hx ▸ hspends.1)
      have hnoParent : x ∉ pool.parentsOf e.tx := fun hmem => hnew (hx ▸ Finmap.mem_keys.mp (parentsOf_sub _ hmem))
      simp only [hno, hnoParent, false_and, and_false, or_false, false_iff, not_and]
      rintro ⟨-, e', he', txin, htxin, heq⟩ hout
      apply hout (hx ▸ mem_insert_self _ _)
      intro hyR
      rw [hx] at heq
      obtain rfl | hyR := mem_insert.mp hyR
      · rw [hadded.entry, Option.some.injEq] at he'
        subst he'
        exact hself txin htxin heq
      · have hy : y ≠ e.tx.hash := fun hy => hnotR (hy ▸ hyR)
        rw [hadded.entries y hy, Option.map_eq_some_iff] at he'
        obtain ⟨e₀, he₀, rfl⟩ := he'
        exact hlater y hyR e₀ he₀ txin htxin heq
    · rw [hadded.spends_iff hnew hx, mem_insert, mem_insert]
      by_cases hy : y = e.tx.hash
      · have hno : ¬ pool.Spends e.tx.hash x := fun hspends => hnew (mem_of_spends hspends).1
        simp [hx, hy, hno]
      · simp [hx, hy]

/-- No chain of spending between two entries of `R`, or between two other entries, needs an entry of the other
kind. -/
def Separate (pool : CTxMemPool sha256) (R : SetEntries) : Prop :=
  ∀ x y, (x ∈ R ↔ y ∈ R) → Relation.ReflTransGen (fun parent child => pool.Spends child parent) x y →
    Relation.ReflTransGen (fun parent child => pool.Spends child parent ∧ (parent ∈ R ↔ child ∈ R)) x y

lemma Readded.rejoined (h : Readded pool R) (hseparate : Separate pool R) :
    Rejoined R pool.getMemPoolChildren pool.trueChildren := by
  refine ⟨fun {x y} => ?_, fun {x y} hsame hreach => ?_⟩
  · rw [h.children, h.consistent.mem_trueChildren]
  · have hpath := hseparate x y hsame
      (Relation.ReflTransGen.mono (fun a b hab => h.consistent.mem_trueChildren.mp hab) _ _ hreach)
    refine Relation.ReflTransGen.mono ?_ _ _ hpath
    rintro a b ⟨hspends, hiff⟩
    exact h.children.mpr ⟨hspends, fun hout => hout.2 (hiff.mp hout.1)⟩

lemma Readded.updateTransactionsFromBlock (h : Readded pool R)
    (hacyclic : ∀ x, ¬ Relation.TransGen pool.Spends x x) (hseparate : Separate pool R)
    {vHashesToUpdate : List Uint256} (hnodup : vHashesToUpdate.Nodup) (hlist : vHashesToUpdate.toFinset = R)
    (hfirst : vHashesToUpdate.Pairwise (fun h h' => ¬ pool.Spends h h')) :
    ∃ pool', pool.updateTransactionsFromBlock vHashesToUpdate = some pool' ∧ Accounting pool' := by
  have hrejoin := h.rejoined hseparate
  have hself : ∀ x, x ∉ pool.trueChildren x := fun x hx =>
    hacyclic x (Relation.TransGen.single (h.consistent.mem_trueChildren.mp hx))
  obtain ⟨pool', cache, hpool', hall⟩ := h.exists_updateTransactionsFromBlock hself hrejoin hnodup hlist hfirst
  exact ⟨pool', hpool', hall.accounting h hacyclic hrejoin⟩

end Readd

end CTxMemPool

end MutableBitcoin
