import MutableBitcoin.MempoolAccounting

/-!
# The limits on ancestors and descendants

`CalculateMemPoolAncestors` compares partial totals on its way. The number of ancestors goes
unnoticed for an entry of the pool whose parents have none.
-/

namespace MutableBitcoin
open Lib Finset Option

namespace CTxMemPool

variable {sha256 : Bytes → Uint256}

/-- No limit is exceeded. -/
def AtMost (n : ℤ) (limit : Option ℕ) : Prop := ∀ l ∈ limit, n ≤ l

section Specification

variable (pool : CTxMemPool sha256) (limits : ChainLimits) (entry : CTxMemPoolEntry sha256)

def sizeOf (s : SetEntries) : ℤ := ∑ it ∈ s, pool.valueAt (·.getTxSize) it

open Classical in
noncomputable def txAncestors (tx : CTransaction sha256) : SetEntries :=
  pool.mapTx.keys.filter (fun y => ∃ p ∈ pool.parentsOf tx, Relation.ReflTransGen pool.Spends p y)

/-- All limits but that on the number of ancestors. -/
structure WithinOtherLimits : Prop where
  ancestorSize : AtMost (entry.getTxSize + pool.sizeOf (pool.txAncestors entry.tx)) limits.limitAncestorSize
  descendantCount : ∀ y ∈ pool.txAncestors entry.tx, AtMost ((pool.descendants y).card + 1) limits.limitDescendantCount
  descendantSize : ∀ y ∈ pool.txAncestors entry.tx,
    AtMost (pool.sizeOf (pool.descendants y) + entry.getTxSize) limits.limitDescendantSize

/-- All limits hold of the final totals. -/
structure WithinLimits : Prop extends WithinOtherLimits pool limits entry where
  ancestorCount : AtMost ((pool.txAncestors entry.tx).card + 1) limits.limitAncestorCount

/-- The calculation succeeds exactly within the limits, with the ancestors. -/
def CalculatesExactly (fSearchForParents : Bool) : Prop :=
  ((∃ s, calculateMemPoolAncestors pool limits entry fSearchForParents = .ok s) ↔
    pool.parentsOf entry.tx = ∅ ∨ WithinLimits pool limits entry) ∧
  ∀ s, calculateMemPoolAncestors pool limits entry fSearchForParents = .ok s → s = pool.txAncestors entry.tx

/-- The entry whose number of ancestors is not compared. -/
structure CountUnchecked (fSearchForParents : Bool) : Prop where
  unsearched : fSearchForParents = false
  roots : ∀ p ∈ pool.parentsOf entry.tx, pool.getMemPoolParents p = ∅
  nonempty : (pool.parentsOf entry.tx).Nonempty
  exceeded : ¬ AtMost ((pool.parentsOf entry.tx).card + 1) limits.limitAncestorCount
  others : WithinOtherLimits pool limits entry

end Specification

lemma exceeds_eq_false_iff {n : ℤ} {limit : Option ℕ} : exceeds n limit = false ↔ AtMost n limit := by
  cases limit with
  | none => simp [exceeds, AtMost]
  | some l => simp [exceeds, AtMost]

lemma AtMost.mono {m n : ℤ} {limit : Option ℕ} (h : AtMost n limit) (hle : m ≤ n) : AtMost m limit :=
  fun l hl => hle.trans (h l hl)

lemma ite_exceeds_succeeds_iff {α ε : Type} {n : ℤ} {limit : Option ℕ} {e : ε} {x : Except ε α} :
    (∃ a, (if exceeds n limit then Except.error e else x) = .ok a) ↔ AtMost n limit ∧ ∃ a, x = .ok a := by
  rw [← exceeds_eq_false_iff]
  cases exceeds n limit <;> simp

lemma bind_succeeds_iff {α β ε : Type} {x : Except ε α} {f : α → Except ε β} :
    (∃ b, (x >>= f) = .ok b) ↔ ∃ a, x = .ok a ∧ ∃ b, f a = .ok b := by
  simp only [bind_eq_ok_iff]
  constructor
  · rintro ⟨b, a, ha, hb⟩
    exact ⟨a, ha, b, hb⟩
  · rintro ⟨a, ha, b, hb⟩
    exact ⟨b, a, ha, hb⟩

section Loops

variable {pool : CTxMemPool sha256} {limits : ChainLimits}

lemma inOrder_eq_nil_iff {s : SetEntries} : s.inOrder = [] ↔ s = ∅ := by
  rw [List.eq_nil_iff_forall_not_mem, eq_empty_iff_forall_notMem]
  simp only [SetEntries.mem_inOrder]

lemma stageParents_succeeds_iff {setAncestors : SetEntries} {l : List Uint256} {parentHashes : SetEntries} :
    (∃ s, stageParents limits setAncestors l parentHashes = .ok s) ↔
      (l ≠ [] → AtMost ((parentHashes ∪ l.toFinset.filter (· ∉ setAncestors)).card + setAncestors.card + 1)
        limits.limitAncestorCount) := by
  induction l generalizing parentHashes with
  | nil => simp [stageParents]
  | cons phash l ih =>
    unfold stageParents
    dsimp only
    have hset : (if phash ∈ setAncestors then parentHashes else insert phash parentHashes) ∪
        l.toFinset.filter (· ∉ setAncestors) =
          parentHashes ∪ (phash :: l).toFinset.filter (· ∉ setAncestors) := by
      rw [List.toFinset_cons, filter_insert]
      split_ifs with hmem
      · rfl
      · rw [insert_union, union_insert]
    rw [ite_exceeds_succeeds_iff, ih, hset]
    constructor
    · rintro ⟨hfirst, hrest⟩ -
      cases l with
      | nil =>
        rw [← hset, List.toFinset_nil, filter_empty, union_empty]
        exact hfirst
      | cons phash' l => exact hrest (List.cons_ne_nil _ _)
    · intro h
      have hall := h (List.cons_ne_nil _ _)
      refine ⟨hall.mono ?_, fun _ => hall⟩
      have hsub : (if phash ∈ setAncestors then parentHashes else insert phash parentHashes) ⊆
          parentHashes ∪ (phash :: l).toFinset.filter (· ∉ setAncestors) := by
        rw [← hset]
        exact subset_union_left
      have hcard := card_le_card hsub
      omega

lemma searchParents_succeeds_iff {vin : List CTxIn} {parentHashes : SetEntries} :
    (∃ s, searchParents pool limits vin parentHashes = .ok s) ↔
      ((vin.map (·.prevout.hash)).toFinset.filter (· ∈ pool.mapTx) ≠ ∅ →
        AtMost ((parentHashes ∪ (vin.map (·.prevout.hash)).toFinset.filter (· ∈ pool.mapTx)).card + 1)
          limits.limitAncestorCount) := by
  induction vin generalizing parentHashes with
  | nil => simp [searchParents]
  | cons txin vin ih =>
    unfold searchParents
    dsimp only
    rw [List.map_cons, List.toFinset_cons, filter_insert]
    by_cases hmem : txin.prevout.hash ∈ pool.mapTx
    · rw [if_pos hmem, if_pos hmem, ite_exceeds_succeeds_iff, ih, insert_union, union_insert]
      have hne : insert txin.prevout.hash ((vin.map (·.prevout.hash)).toFinset.filter (· ∈ pool.mapTx)) ≠ ∅ :=
        insert_ne_empty _ _
      constructor
      · rintro ⟨hfirst, hrest⟩ -
        by_cases hempty : (vin.map (·.prevout.hash)).toFinset.filter (· ∈ pool.mapTx) = ∅
        · rwa [hempty, union_empty]
        · exact hrest hempty
      · intro h
        refine ⟨(h hne).mono ?_, fun _ => h hne⟩
        have hsub : parentHashes ⊆ parentHashes ∪ (vin.map (·.prevout.hash)).toFinset.filter (· ∈ pool.mapTx) :=
          subset_union_left
        have hcard := card_le_card (insert_subset_insert txin.prevout.hash hsub)
        omega
    · rw [if_neg hmem, if_neg hmem]
      exact ih

lemma searchParents_ok_iff {tx : CTransaction sha256} {s : SetEntries} :
    searchParents pool limits tx.vin ∅ = .ok s ↔ s = pool.parentsOf tx ∧
      (pool.parentsOf tx ≠ ∅ → AtMost ((pool.parentsOf tx).card + 1) limits.limitAncestorCount) := by
  have hsearch := @searchParents_succeeds_iff sha256 pool limits tx.vin ∅
  rw [empty_union] at hsearch
  constructor
  · intro h
    have heq := searchParents_ok h
    rw [empty_union] at heq
    exact ⟨heq, hsearch.mp ⟨s, h⟩⟩
  · rintro ⟨rfl, hcount⟩
    obtain ⟨s, hs⟩ := hsearch.mpr hcount
    have heq := searchParents_ok hs
    rw [empty_union] at heq
    rwa [heq] at hs

/-- Stage and finished set reach the closure. -/
def Covers (next : Uint256 → SetEntries) (stage finished closure : SetEntries) : Prop :=
  ∀ y, y ∈ closure ↔ y ∈ finished ∨ ∃ x ∈ stage, Reaches next x y

lemma Covers.step {next : Uint256 → SetEntries} {univ stage finished closure : SetEntries}
    (h : Covers next stage finished closure) (hstaged : Staged next univ stage finished) {x : Uint256}
    (hx : x ∈ stage) :
    Covers next (stage.erase x ∪ (next x).filter (· ∉ insert x finished)) (insert x finished) closure := by
  intro y
  rw [hstaged.covered_step hx]
  exact h y

lemma Covers.sub {next : Uint256 → SetEntries} {stage finished closure : SetEntries}
    (h : Covers next stage finished closure) : stage ∪ finished ⊆ closure := by
  intro y hy
  obtain hy | hy := mem_union.mp hy
  · exact (h y).mpr (Or.inr ⟨y, hy, Relation.ReflTransGen.refl⟩)
  · exact (h y).mpr (Or.inl hy)

lemma Covers.eq_of_roots {next : Uint256 → SetEntries} {stage finished closure : SetEntries}
    (h : Covers next stage finished closure) (hroots : ∀ x ∈ stage, next x = ∅) : closure = stage ∪ finished := by
  apply Finset.Subset.antisymm _ h.sub
  intro y hy
  obtain hy | ⟨x, hx, hreach⟩ := (h y).mp hy
  · exact mem_union_right _ hy
  · obtain rfl | ⟨z, hz, -⟩ := Relation.ReflTransGen.cases_head hreach
    · exact mem_union_left _ hx
    · rw [hroots x hx] at hz
      exact absurd hz (notMem_empty z)

/-- An entry of size `nTxSize` fits under an entry of the pool, as its counters say. -/
structure FitsBelow (pool : CTxMemPool sha256) (limits : ChainLimits) (nTxSize : ℤ) (it : Uint256) : Prop where
  size : AtMost (pool.valueAt (·.nSizeWithDescendants) it + nTxSize) limits.limitDescendantSize
  count : AtMost (pool.valueAt (·.nCountWithDescendants) it + 1) limits.limitDescendantCount

lemma getTxSize_nonneg (pool : CTxMemPool sha256) (it : Uint256) : 0 ≤ pool.valueAt (·.getTxSize) it := by
  unfold valueAt
  cases pool.mapTx.lookup it with
  | none => exact le_rfl
  | some e => exact Int.natCast_nonneg _

lemma sizeOf_nonneg (pool : CTxMemPool sha256) (s : SetEntries) : 0 ≤ pool.sizeOf s :=
  sum_nonneg fun it _ => getTxSize_nonneg pool it

/-- The comparisons so far have passed. -/
structure LoopWithin (pool : CTxMemPool sha256) (limits : ChainLimits) (nTxSize total : ℤ)
    (stage finished closure : SetEntries) : Prop where
  below : ∀ x ∈ closure \ finished, FitsBelow pool limits nTxSize x
  size : stage ≠ ∅ → AtMost (total + pool.sizeOf (closure \ finished)) limits.limitAncestorSize
  count : (∃ x ∈ closure \ finished, pool.getMemPoolParents x ≠ ∅) →
    AtMost (closure.card + 1) limits.limitAncestorCount

lemma loopWithin_of_stage_empty {nTxSize total : ℤ} {finished closure : SetEntries}
    (hcovers : Covers pool.getMemPoolParents ∅ finished closure) :
    LoopWithin pool limits nTxSize total ∅ finished closure := by
  have heq := hcovers.eq_of_roots (fun x hx => absurd hx (notMem_empty x))
  rw [empty_union] at heq
  rw [heq]
  constructor
  · simp
  · simp
  · simp

lemma LoopWithin.step_iff {nTxSize total : ℤ} {stage finished closure : SetEntries}
    (h : Staged pool.getMemPoolParents pool.mapTx.keys stage finished)
    (hcovers : Covers pool.getMemPoolParents stage finished closure) {x : Uint256} (hx : x ∈ stage) :
    LoopWithin pool limits nTxSize total stage finished closure ↔
      FitsBelow pool limits nTxSize x ∧
      AtMost (total + pool.valueAt (·.getTxSize) x) limits.limitAncestorSize ∧
      (pool.getMemPoolParents x ≠ ∅ → AtMost
        ((stage.erase x ∪ (pool.getMemPoolParents x).filter (· ∉ insert x finished)).card +
          (insert x finished).card + 1) limits.limitAncestorCount) ∧
      LoopWithin pool limits nTxSize (total + pool.valueAt (·.getTxSize) x)
        (stage.erase x ∪ (pool.getMemPoolParents x).filter (· ∉ insert x finished)) (insert x finished) closure := by
  have hnext := hcovers.step h hx
  have hstep := h.step hx
  set stage' := stage.erase x ∪ (pool.getMemPoolParents x).filter (· ∉ insert x finished) with hstage'
  have hxC : x ∈ closure := hcovers.sub (mem_union_left _ hx)
  have hxF : x ∉ finished := disjoint_left.mp h.fresh hx
  have hsplit : closure \ finished = insert x (closure \ insert x finished) := by
    rw [sdiff_insert, insert_erase (mem_sdiff.mpr ⟨hxC, hxF⟩)]
  have hnot : x ∉ closure \ insert x finished := by simp
  have hsize : pool.sizeOf (closure \ finished) =
      pool.valueAt (·.getTxSize) x + pool.sizeOf (closure \ insert x finished) := by
    rw [hsplit]
    exact sum_insert hnot
  have hcard : stage'.card + (insert x finished).card ≤ closure.card := by
    rw [← card_union_of_disjoint hstep.fresh]
    exact card_le_card hnext.sub
  have hnonneg := sizeOf_nonneg pool (closure \ insert x finished)
  constructor
  · rintro ⟨hbelow, hwithin, hcount⟩
    have hwithin := hwithin (ne_empty_of_mem hx)
    rw [hsplit] at hbelow hcount
    rw [hsize, ← add_assoc] at hwithin
    refine ⟨hbelow x (mem_insert_self _ _), hwithin.mono (by omega), ?_,
      fun y hy => hbelow y (mem_insert_of_mem hy), fun _ => hwithin, ?_⟩
    · intro hparents
      exact (hcount ⟨x, mem_insert_self _ _, hparents⟩).mono (by omega)
    · rintro ⟨y, hy, hparents⟩
      exact hcount ⟨y, mem_insert_of_mem hy, hparents⟩
  · rintro ⟨hfits, htotal, hparents, hrest⟩
    refine ⟨?_, ?_, ?_⟩
    · rw [hsplit]
      intro y hy
      obtain rfl | hy := mem_insert.mp hy
      · exact hfits
      · exact hrest.below y hy
    · intro _
      rw [hsize, ← add_assoc]
      by_cases hempty : stage' = ∅
      · have heq := hnext.eq_of_roots (by rw [hempty]; exact fun y hy => absurd hy (notMem_empty y))
        rw [hempty, empty_union] at heq
        rw [heq, sdiff_self]
        simpa [sizeOf] using htotal
      · exact hrest.size hempty
    · rintro ⟨y, hy, hne⟩
      by_cases hroots : ∀ z ∈ stage', pool.getMemPoolParents z = ∅
      · have heq := hnext.eq_of_roots hroots
        by_cases hyx : y = x
        · rw [heq, card_union_of_disjoint hstep.fresh]
          exact_mod_cast hparents (hyx ▸ hne)
        · rw [hsplit] at hy
          exact hrest.count ⟨y, (mem_insert.mp hy).resolve_left hyx, hne⟩
      · rw [not_forall₂] at hroots
        obtain ⟨z, hz, hzne⟩ := hroots
        exact hrest.count ⟨z, mem_sdiff.mpr ⟨hnext.sub (mem_union_left _ hz),
          disjoint_left.mp hstep.fresh hz⟩, hzne⟩

lemma ancestorLoop_succeeds_iff {nTxSize total : ℤ} {fuel : ℕ} {stage finished closure : SetEntries}
    (h : Staged pool.getMemPoolParents pool.mapTx.keys stage finished)
    (hcovers : Covers pool.getMemPoolParents stage finished closure)
    (hfuel : (pool.mapTx.keys \ finished).card ≤ fuel) :
    (∃ s, ancestorLoop pool limits nTxSize fuel stage finished total = .ok s) ↔
      LoopWithin pool limits nTxSize total stage finished closure := by
  induction fuel generalizing stage finished total with
  | zero =>
    have hempty := h.stage_empty hfuel
    subst hempty
    exact iff_of_true ⟨finished, rfl⟩ (loopWithin_of_stage_empty hcovers)
  | succ fuel ih =>
    unfold ancestorLoop
    cases hfirst : stage.first with
    | none =>
      have hempty := SetEntries.takes_first.empty hfirst
      subst hempty
      exact iff_of_true ⟨finished, rfl⟩ (loopWithin_of_stage_empty hcovers)
    | some x =>
      have hx := SetEntries.takes_first.mem hfirst
      dsimp only
      rw [ite_exceeds_succeeds_iff, ite_exceeds_succeeds_iff, ite_exceeds_succeeds_iff, bind_succeeds_iff,
        LoopWithin.step_iff h hcovers hx, ← ih (h.step hx) (hcovers.step h hx) (h.fuel_step hfuel hx)]
      have hstage : (∃ s, stageParents limits (insert x finished) (pool.getMemPoolParents x).inOrder (stage.erase x) =
          .ok s) ↔ (pool.getMemPoolParents x ≠ ∅ → AtMost
            ((stage.erase x ∪ (pool.getMemPoolParents x).filter (· ∉ insert x finished)).card +
              (insert x finished).card + 1) limits.limitAncestorCount) := by
        rw [stageParents_succeeds_iff, toFinset_inOrder, Ne, inOrder_eq_nil_iff]
      rw [← hstage]
      constructor
      · rintro ⟨hsize, hcount, htotal, staged, hstaged, hrest⟩
        have heq := stageParents_ok hstaged
        rw [toFinset_inOrder] at heq
        exact ⟨⟨hsize, hcount⟩, htotal, ⟨staged, hstaged⟩, heq ▸ hrest⟩
      · rintro ⟨hfits, htotal, ⟨staged, hstaged⟩, hrest⟩
        have heq := stageParents_ok hstaged
        rw [toFinset_inOrder] at heq
        exact ⟨hfits.size, hfits.count, htotal, staged, hstaged, heq ▸ hrest⟩

end Loops

section Calculation

variable {pool : CTxMemPool sha256} {limits : ChainLimits} {entry : CTxMemPoolEntry sha256}
  {fSearchForParents : Bool}

lemma Accounting.nSizeWithDescendants_eq (hacc : Accounting pool) {it : Uint256} (hit : it ∈ pool.mapTx) :
    pool.valueAt (·.nSizeWithDescendants) it = pool.sizeOf (pool.descendants it) := by
  obtain ⟨e, he⟩ := exists_coreAt hit
  have hsize := congrArg (fun s => s.1) (hacc.exact.descendants it e he)
  rw [Pi.zero_apply, add_zero] at hsize
  rw [valueAt_eq_of_core (fun _ => rfl) he]
  refine hsize.trans ?_
  rw [Prod.fst_sum]
  apply sum_congr rfl
  intro y hy
  obtain ⟨ey, hey⟩ := exists_coreAt (Finmap.mem_keys.mp (mem_below.mp hy).1)
  rw [descendantShareAt_eq hey, valueAt_eq_of_core (fun _ => rfl) hey]
  rfl

lemma txAncestors_sub (tx : CTransaction sha256) : pool.txAncestors tx ⊆ pool.mapTx.keys := by
  intro y hy
  simp only [txAncestors, mem_filter] at hy
  exact hy.1

lemma Accounting.mem_txAncestors (hacc : Accounting pool) {tx : CTransaction sha256} {y : Uint256} :
    y ∈ pool.txAncestors tx ↔ ∃ p ∈ pool.parentsOf tx, Reaches pool.getMemPoolParents p y := by
  have hreaches : ∀ p, Reaches pool.getMemPoolParents p y ↔ Relation.ReflTransGen pool.Spends p y := by
    intro p
    simp only [Reaches, hacc.parents]
  simp only [txAncestors, mem_filter, hreaches, and_iff_right_iff_imp]
  rintro ⟨p, hp, hreach⟩
  obtain rfl | ⟨z, -, hspends⟩ := Relation.ReflTransGen.cases_tail hreach
  · exact parentsOf_sub tx hp
  · exact Finmap.mem_keys.mpr hspends.1

lemma Accounting.covers (hacc : Accounting pool) (tx : CTransaction sha256) :
    Covers pool.getMemPoolParents (pool.parentsOf tx) ∅ (pool.txAncestors tx) := by
  intro y
  rw [hacc.mem_txAncestors]
  simp

lemma Accounting.fitsBelow_iff (hacc : Accounting pool) {nTxSize : ℤ} {y : Uint256} (hy : y ∈ pool.mapTx) :
    FitsBelow pool limits nTxSize y ↔
      AtMost ((pool.descendants y).card + 1) limits.limitDescendantCount ∧
      AtMost (pool.sizeOf (pool.descendants y) + nTxSize) limits.limitDescendantSize := by
  rw [← nCountWithDescendants_eq hacc hy, ← hacc.nSizeWithDescendants_eq hy]
  exact ⟨fun h => ⟨h.count, h.size⟩, fun h => ⟨h.2, h.1⟩⟩

lemma Accounting.getMemPoolParents_eq (hacc : Accounting pool)
    (hentry : pool.mapTx.lookup entry.tx.hash = some entry) :
    pool.getMemPoolParents entry.tx.hash = pool.parentsOf entry.tx := by
  have hcore : pool.coreAt entry.tx.hash = some entry.core := by
    rw [coreAt, hentry]
    rfl
  ext p
  rw [hacc.parents, mem_parentsOf, Spends, hcore, and_comm]
  simp [CTxMemPoolEntry.core]

lemma Accounting.calculate_eq (hacc : Accounting pool)
    (hentry : fSearchForParents = false → pool.mapTx.lookup entry.tx.hash = some entry) {s : SetEntries} :
    calculateMemPoolAncestors pool limits entry fSearchForParents = .ok s ↔
      (fSearchForParents = true → pool.parentsOf entry.tx ≠ ∅ →
        AtMost ((pool.parentsOf entry.tx).card + 1) limits.limitAncestorCount) ∧
      ancestorLoop pool limits entry.getTxSize pool.mapTx.keys.card (pool.parentsOf entry.tx) ∅ entry.getTxSize =
        .ok s := by
  unfold calculateMemPoolAncestors
  cases fSearchForParents with
  | false =>
    rw [← hacc.getMemPoolParents_eq (hentry rfl)]
    simp [ok_bind]
  | true =>
    rw [if_pos rfl, bind_eq_ok_iff]
    constructor
    · rintro ⟨parentHashes, hparents, hloop⟩
      obtain ⟨rfl, hcount⟩ := searchParents_ok_iff.mp hparents
      exact ⟨fun _ => hcount, hloop⟩
    · rintro ⟨hcount, hloop⟩
      exact ⟨_, searchParents_ok_iff.mpr ⟨rfl, hcount rfl⟩, hloop⟩

lemma Accounting.loopWithin_iff (hacc : Accounting pool) :
    LoopWithin pool limits entry.getTxSize entry.getTxSize (pool.parentsOf entry.tx) ∅ (pool.txAncestors entry.tx) ↔
      pool.parentsOf entry.tx = ∅ ∨ WithinOtherLimits pool limits entry ∧
        ((∃ p ∈ pool.parentsOf entry.tx, pool.getMemPoolParents p ≠ ∅) →
          AtMost ((pool.txAncestors entry.tx).card + 1) limits.limitAncestorCount) := by
  have hcovers := hacc.covers entry.tx
  have hmem : ∀ y ∈ pool.txAncestors entry.tx, y ∈ pool.mapTx :=
    fun y hy => Finmap.mem_keys.mp (txAncestors_sub entry.tx hy)
  by_cases hempty : pool.parentsOf entry.tx = ∅
  · rw [hempty] at hcovers ⊢
    exact iff_of_true (loopWithin_of_stage_empty hcovers) (Or.inl rfl)
  · rw [or_iff_right hempty]
    constructor
    · rintro ⟨hbelow, hsize, hcount⟩
      rw [sdiff_empty] at hbelow hsize hcount
      refine ⟨⟨hsize hempty, ?_, ?_⟩, ?_⟩
      · exact fun y hy => ((hacc.fitsBelow_iff (hmem y hy)).mp (hbelow y hy)).1
      · exact fun y hy => ((hacc.fitsBelow_iff (hmem y hy)).mp (hbelow y hy)).2
      · rintro ⟨p, hp, hparents⟩
        exact hcount ⟨p, hcovers.sub (mem_union_left _ hp), hparents⟩
    · rintro ⟨hothers, hcount⟩
      constructor
      · rw [sdiff_empty]
        intro y hy
        exact (hacc.fitsBelow_iff (hmem y hy)).mpr ⟨hothers.descendantCount y hy, hothers.descendantSize y hy⟩
      · rw [sdiff_empty]
        exact fun _ => hothers.ancestorSize
      · rw [sdiff_empty]
        rintro ⟨y, hy, hparents⟩
        apply hcount
        -- Without parents of parents the ancestors are the parents.
        by_contra hroots
        simp only [not_exists, not_and, not_not] at hroots
        rw [hcovers.eq_of_roots hroots, union_empty] at hy
        exact hparents (hroots y hy)

lemma Accounting.calculate_succeeds_iff (hacc : Accounting pool)
    (hentry : fSearchForParents = false → pool.mapTx.lookup entry.tx.hash = some entry) :
    (∃ s, calculateMemPoolAncestors pool limits entry fSearchForParents = .ok s) ↔
      pool.parentsOf entry.tx = ∅ ∨ WithinOtherLimits pool limits entry ∧
        (fSearchForParents = true ∨ (∃ p ∈ pool.parentsOf entry.tx, pool.getMemPoolParents p ≠ ∅) →
          AtMost ((pool.txAncestors entry.tx).card + 1) limits.limitAncestorCount) := by
  have hcovers := hacc.covers entry.tx
  have hstaged : Staged pool.getMemPoolParents pool.mapTx.keys (pool.parentsOf entry.tx) ∅ :=
    staged_init (parentsOf_sub entry.tx) (fun x _ => hacc.linked.parents_sub x)
  simp only [hacc.calculate_eq hentry, exists_and_left]
  rw [ancestorLoop_succeeds_iff hstaged hcovers (by rw [sdiff_empty]), hacc.loopWithin_iff]
  by_cases hempty : pool.parentsOf entry.tx = ∅
  · simp [hempty]
  · rw [or_iff_right hempty, or_iff_right hempty, or_imp]
    have hcard : (pool.parentsOf entry.tx).card ≤ (pool.txAncestors entry.tx).card :=
      card_le_card (subset_union_left.trans hcovers.sub)
    constructor
    · rintro ⟨hparents, hothers, hcount⟩
      refine ⟨hothers, ?_, hcount⟩
      intro hsearch
      by_cases hroots : ∃ p ∈ pool.parentsOf entry.tx, pool.getMemPoolParents p ≠ ∅
      · exact hcount hroots
      · simp only [not_exists, not_and, not_not] at hroots
        rw [hcovers.eq_of_roots hroots, union_empty]
        exact hparents hsearch hempty
    · rintro ⟨hothers, hsearched, hcount⟩
      exact ⟨fun hsearch _ => (hsearched hsearch).mono (by omega), hothers, hcount⟩

lemma Accounting.calculated_eq (hacc : Accounting pool)
    (hentry : fSearchForParents = false → pool.mapTx.lookup entry.tx.hash = some entry) {s : SetEntries}
    (h : calculateMemPoolAncestors pool limits entry fSearchForParents = .ok s) : s = pool.txAncestors entry.tx := by
  rw [ancestorLoop_ok ((hacc.calculate_eq hentry).mp h).2]
  ext y
  rw [mem_worklist_parents (parentsOf_sub entry.tx) (fun x _ => hacc.linked.parents_sub x), hacc.mem_txAncestors]

/-- The result is right unless only the number of the parents is too large and nothing compares it. -/
theorem calculatesExactly_iff (pool : CTxMemPool sha256) (hacc : Accounting pool) (limits : ChainLimits)
    (entry : CTxMemPoolEntry sha256) (fSearchForParents : Bool)
    (hentry : fSearchForParents = false → pool.mapTx.lookup entry.tx.hash = some entry) :
    CalculatesExactly pool limits entry fSearchForParents ↔ ¬ CountUnchecked pool limits entry fSearchForParents := by
  unfold CalculatesExactly
  rw [and_iff_left (fun s hs => hacc.calculated_eq hentry hs), hacc.calculate_succeeds_iff hentry]
  have hcovers := hacc.covers entry.tx
  constructor
  · rintro h ⟨hunsearched, hroots, hnonempty, hexceeded, hothers⟩
    have hcount : fSearchForParents = true ∨ (∃ p ∈ pool.parentsOf entry.tx, pool.getMemPoolParents p ≠ ∅) →
        AtMost ((pool.txAncestors entry.tx).card + 1) limits.limitAncestorCount := by
      rintro (hsearch | ⟨p, hp, hparents⟩)
      · rw [hunsearched] at hsearch
        cases hsearch
      · exact absurd (hroots p hp) hparents
    obtain hempty | hwithin := h.mp (Or.inr ⟨hothers, hcount⟩)
    · exact hnonempty.ne_empty hempty
    · have hcard := hwithin.ancestorCount
      rw [hcovers.eq_of_roots hroots, union_empty] at hcard
      exact hexceeded hcard
  · intro hchecked
    constructor
    · rintro (hempty | ⟨hothers, hcount⟩)
      · exact Or.inl hempty
      · by_cases hempty : pool.parentsOf entry.tx = ∅
        · exact Or.inl hempty
        · refine Or.inr ⟨hothers, ?_⟩
          by_contra hexceeded
          have hnone := mt hcount hexceeded
          simp only [not_or, not_exists, not_and, not_not, Bool.not_eq_true] at hnone
          rw [hcovers.eq_of_roots hnone.2, union_empty] at hexceeded
          exact hchecked ⟨hnone.1, hnone.2, nonempty_iff_ne_empty.mpr hempty, hexceeded, hothers⟩
    · rintro (hempty | hwithin)
      · exact Or.inl hempty
      · exact Or.inr ⟨hwithin.toWithinOtherLimits, fun _ => hwithin.ancestorCount⟩

end Calculation

section Pair

def ancestorLimit (limitAncestorCount : ℕ) : ChainLimits := ⟨some limitAncestorCount, none, none, none⟩

lemma exists_linkedPair : ∃ pool₁ pool entry, CTxMemPool.empty.addUnchecked (linkEntry secondLink) ∅ = some pool₁ ∧
    pool₁.addUnchecked (linkEntry thirdLink) {secondLink.hash} = some pool ∧ Accounting pool ∧
    pool.mapTx.lookup entry.tx.hash = some entry ∧ pool.parentsOf entry.tx = {secondLink.hash} ∧
    pool.getMemPoolParents secondLink.hash = ∅ ∧
    calculateMemPoolAncestors pool (ancestorLimit 1) entry false = .ok {secondLink.hash} := by
  have hin₁ : (BookCall.addUnchecked (linkEntry secondLink) ∅).InStep chainTx CTxMemPool.empty ∅ :=
    ⟨rfl, addable_of_check (Or.inr (Or.inl rfl)) (by decide +kernel), fun it hspends => nomatch hspends.choose_spec.1⟩
  obtain ⟨pool₁, hrun₁, hinv₁⟩ := (bookInvariant_of_bookReachable chain_acyclic .empty).call chain_acyclic hin₁
  have hrun₁ : CTxMemPool.empty.addUnchecked (linkEntry secondLink) ∅ = some pool₁ := hrun₁
  have hcheck₂ : (CTxMemPool.empty.addUnchecked (linkEntry secondLink) ∅).map (fun pool =>
      (addableCheck pool thirdLink {secondLink.hash}, decide (pool.spendersOf thirdLink.hash = ∅))) =
        some (true, true) := by
    decide +kernel
  rw [hrun₁, map_some, Option.some.injEq, Prod.mk.injEq, decide_eq_true_eq] at hcheck₂
  have hchildren₂ : ∀ it, ¬ SpendsFrom pool₁ it thirdLink.hash := by
    rintro it ⟨e, he, hspends⟩
    have hmem : it ∈ pool₁.spendersOf thirdLink.hash :=
      hinv₁.readded.consistent.mem_spendersOf.mpr ⟨e.core, by rw [coreAt, he]; rfl, hspends⟩
    rw [hcheck₂.2] at hmem
    exact notMem_empty it hmem
  have hin₂ : (BookCall.addUnchecked (linkEntry thirdLink) {secondLink.hash}).InStep chainTx pool₁ ∅ :=
    ⟨rfl, addable_of_check (Or.inr (Or.inr rfl)) hcheck₂.1, hchildren₂⟩
  obtain ⟨pool, hrun₂, hinv₂⟩ := hinv₁.call chain_acyclic hin₂
  have hrun₂ : pool₁.addUnchecked (linkEntry thirdLink) {secondLink.hash} = some pool := hrun₂
  have hacc := readded_empty_iff.mp hinv₂.readded
  have hfinal : ((CTxMemPool.empty.addUnchecked (linkEntry secondLink) ∅).bind
      (·.addUnchecked (linkEntry thirdLink) {secondLink.hash})).bind (fun pool =>
        (pool.mapTx.lookup thirdLink.hash).map (fun entry =>
          decide (pool.parentsOf entry.tx = {secondLink.hash} ∧ pool.getMemPoolParents secondLink.hash = ∅ ∧
            (calculateMemPoolAncestors pool (ancestorLimit 1) entry false).toOption = some {secondLink.hash}))) =
        some true := by
    decide +kernel
  rw [hrun₁, bind_some, hrun₂, bind_some, map_eq_some_iff] at hfinal
  obtain ⟨entry, hentry, hfacts⟩ := hfinal
  obtain ⟨hparents, hroot, hset⟩ := of_decide_eq_true hfacts
  have hid : entry.tx.hash = thirdLink.hash := hacc.linked.ids thirdLink.hash entry.core (by rw [coreAt, hentry]; rfl)
  exact ⟨pool₁, pool, entry, hrun₁, hrun₂, hacc, hid ▸ hentry, hparents, hroot, eq_ok_of_toOption hset⟩

/-- The spending transaction of the pair has two ancestors with itself. -/
theorem calculatesExactly_iff_linkedPair : ∃ pool₁ pool entry,
    CTxMemPool.empty.addUnchecked (linkEntry secondLink) ∅ = some pool₁ ∧
    pool₁.addUnchecked (linkEntry thirdLink) {secondLink.hash} = some pool ∧ Accounting pool ∧
    pool.mapTx.lookup entry.tx.hash = some entry ∧ CalculatesExactly pool (ancestorLimit 2) entry false := by
  obtain ⟨pool₁, pool, entry, hrun₁, hrun₂, hacc, hentry, hparents, -, -⟩ := exists_linkedPair
  refine ⟨pool₁, pool, entry, hrun₁, hrun₂, hacc, hentry, ?_⟩
  apply (calculatesExactly_iff pool hacc (ancestorLimit 2) entry false (fun _ => hentry)).mpr
  rintro ⟨-, -, -, hexceeded, -⟩
  rw [hparents] at hexceeded
  exact hexceeded (fun l hl => by obtain rfl := Option.some.inj hl; simp)

/-- With a limit of one ancestor it still has its ancestors calculated. -/
theorem not_calculatesExactly_linkedPair : ∃ pool₁ pool entry,
    CTxMemPool.empty.addUnchecked (linkEntry secondLink) ∅ = some pool₁ ∧
    pool₁.addUnchecked (linkEntry thirdLink) {secondLink.hash} = some pool ∧ Accounting pool ∧
    pool.mapTx.lookup entry.tx.hash = some entry ∧ ¬ CalculatesExactly pool (ancestorLimit 1) entry false := by
  obtain ⟨pool₁, pool, entry, hrun₁, hrun₂, hacc, hentry, hparents, hroot, hset⟩ := exists_linkedPair
  refine ⟨pool₁, pool, entry, hrun₁, hrun₂, hacc, hentry, ?_⟩
  rintro ⟨hreturns, -⟩
  obtain hempty | hwithin := hreturns.mp ⟨_, hset⟩
  · rw [hparents] at hempty
    exact absurd hempty (singleton_ne_empty _)
  · have hcount := hwithin.ancestorCount
    rw [(hacc.covers entry.tx).eq_of_roots (by rw [hparents]; simpa using hroot), hparents] at hcount
    have hle := hcount 1 rfl
    simp at hle

end Pair

end CTxMemPool

end MutableBitcoin
