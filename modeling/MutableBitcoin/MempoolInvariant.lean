import MutableBitcoin.MempoolAddition
import Mathlib.Tactic.Abel

/-!
# Invariants of the pool

The links have no cycles, `mapNextTx` holds exactly the outputs that the entries spend, and every counter covers
what it counts. Additions and removals keep this.
-/

namespace MutableBitcoin
open Lib Finset Option Prod

namespace CTxMemPool

variable {sha256 : Bytes → Uint256}

/-- `mapNextTx` holds the outputs that the entries spend. -/
def NextExact (pool : CTxMemPool sha256) : Prop :=
  ∀ o tx, pool.mapNextTx.lookup o = some tx ↔
    ∃ it e, pool.coreAt it = some e ∧ e.tx = tx ∧ ∃ txin ∈ tx.vin, txin.prevout = o

/-- The counters are at least the totals. -/
structure Covered (pool : CTxMemPool sha256) : Prop where
  descendants : ∃ slack, CountsDescendants pool slack ∧ ∀ it, 0 ≤ (slack it).1 ∧ 0 ≤ (slack it).2.2
  ancestors : ∃ slack, CountsAncestors pool slack ∧
    ∀ it, 0 ≤ (slack it).1 ∧ 0 ≤ (slack it).2.2.1 ∧ 0 ≤ (slack it).2.2.2

/-- The counters are the totals. -/
structure Exact (pool : CTxMemPool sha256) : Prop where
  descendants : CountsDescendants pool 0
  ancestors : CountsAncestors pool 0

lemma Exact.covered {pool : CTxMemPool sha256} (h : Exact pool) : Covered pool :=
  ⟨⟨0, h.descendants, fun _ => ⟨le_rfl, le_rfl⟩⟩, ⟨0, h.ancestors, fun _ => ⟨le_rfl, le_rfl, le_rfl⟩⟩⟩

/-- Links and spent outputs agree, and the counters cover the totals. -/
structure Consistent (pool : CTxMemPool sha256) : Prop where
  linked : Linked pool
  next : NextExact pool
  covered : Covered pool

lemma linked_empty : Linked (CTxMemPool.empty : CTxMemPool sha256) := by
  refine ⟨⟨?_, ?_, ?_⟩, fun _ => Iff.rfl, ?_⟩
  · intro x y hy
    exact absurd hy (notMem_empty y)
  · intro x y
    exact ⟨fun h => absurd h (notMem_empty x), fun h => absurd h (notMem_empty y)⟩
  · intro x y hy
    exact absurd hy (notMem_empty y)
  · intro it e he
    cases he

lemma exact_empty : Exact (CTxMemPool.empty : CTxMemPool sha256) := by
  refine ⟨?_, ?_⟩
  · intro it e he
    cases he
  · intro it e he
    cases he

lemma consistent_empty : Consistent (CTxMemPool.empty : CTxMemPool sha256) := by
  refine ⟨linked_empty, ?_, exact_empty.covered⟩
  intro o tx
  constructor
  · intro h
    cases h
  · rintro ⟨it, e, he, -⟩
    cases he

section Removed

variable {pool pool' : CTxMemPool sha256} {stage : SetEntries} {updateDescendants : Bool}
  {slackD : Uint256 → ℤ × ℤ × ℤ} {slackA : Uint256 → ℤ × ℤ × ℤ × ℤ}

lemma Removed.exists_coreAt (h : Removed pool pool' stage updateDescendants) {it : Uint256}
    {e' : CTxMemPoolEntry sha256} (he' : pool'.coreAt it = some e') : it ∉ stage ∧ ∃ e, pool.coreAt it = some e ∧
      e' = e.shift (-∑ r ∈ stage ∩ pool.descendants it, pool.descendantShareAt r)
        (if updateDescendants then -∑ r ∈ stage ∩ pool.ancestors it, pool.ancestorShareAt r else 0) := by
  have hit : it ∉ stage := by
    intro hit
    rw [h.gone it hit] at he'
    cases he'
  rw [h.entries it hit, map_eq_some_iff] at he'
  obtain ⟨e, he, heq⟩ := he'
  exact ⟨hit, e, he, heq.symm⟩

lemma Removed.coreAt (h : Removed pool pool' stage updateDescendants) {it : Uint256} (hit : it ∉ stage)
    {e : CTxMemPoolEntry sha256} (he : pool.coreAt it = some e) :
    pool'.coreAt it = some (e.shift (-∑ r ∈ stage ∩ pool.descendants it, pool.descendantShareAt r)
      (if updateDescendants then -∑ r ∈ stage ∩ pool.ancestors it, pool.ancestorShareAt r else 0)) := by
  rw [h.entries it hit, he]
  rfl

lemma Removed.mem_iff (h : Removed pool pool' stage updateDescendants) {it : Uint256} :
    it ∈ pool'.mapTx ↔ it ∈ pool.mapTx ∧ it ∉ stage := by
  rw [mem_mapTx_iff_coreAt, mem_mapTx_iff_coreAt]
  by_cases hit : it ∈ stage
  · rw [h.gone it hit]
    simp [hit]
  · rw [h.entries it hit, isSome_map]
    simp [hit]

lemma Removed.keys (h : Removed pool pool' stage updateDescendants) :
    pool'.mapTx.keys = pool.mapTx.keys \ stage := by
  ext it
  rw [Finmap.mem_keys, h.mem_iff, mem_sdiff, Finmap.mem_keys]

lemma Removed.linked (hlinked : Linked pool) (h : Removed pool pool' stage updateDescendants) : Linked pool' := by
  refine ⟨?_, ?_, ?_⟩
  · rw [h.keys]
    exact hlinked.dag.without h.links
  · intro it
    rw [h.domain, hlinked.domain, h.mem_iff]
  · intro it e' he'
    obtain ⟨-, e, he, rfl⟩ := h.exists_coreAt he'
    exact hlinked.ids it e he

lemma Removed.nextExact (hlinked : Linked pool) (hnext : NextExact pool)
    (h : Removed pool pool' stage updateDescendants) : NextExact pool' := by
  intro o tx
  constructor
  · intro ho
    obtain ⟨it, e, he, rfl, txin, htxin, rfl⟩ := (hnext o tx).mp (h.nextSub o tx ho)
    have hit : it ∉ stage := by
      intro hit
      rw [h.nextGone it hit e he txin htxin] at ho
      cases ho
    exact ⟨it, _, h.coreAt hit he, rfl, txin, htxin, rfl⟩
  · rintro ⟨it, e', he', rfl, txin, htxin, rfl⟩
    obtain ⟨hit, e, he, rfl⟩ := h.exists_coreAt he'
    have hold := (hnext txin.prevout e.tx).mpr ⟨it, e, he, rfl, txin, htxin, rfl⟩
    rw [h.nextKept _, hold]
    · rfl
    · -- A removed entry that spends the same output would be this one.
      intro r hr er her txin' htxin' heq
      have hspent := (hnext txin'.prevout er.tx).mpr ⟨r, er, her, rfl, txin', htxin', rfl⟩
      rw [heq, hold, Option.some.injEq] at hspent
      apply hit
      rw [← hlinked.ids it e he, hspent, hlinked.ids r er her]
      exact hr

lemma Removed.descendantShareAt (h : Removed pool pool' stage updateDescendants) {y : Uint256} (hy : y ∉ stage) :
    pool'.descendantShareAt y = pool.descendantShareAt y := by
  unfold CTxMemPool.descendantShareAt
  rw [h.entries y hy, Option.map_map]
  rfl

lemma Removed.ancestorShareAt (h : Removed pool pool' stage updateDescendants) {y : Uint256} (hy : y ∉ stage) :
    pool'.ancestorShareAt y = pool.ancestorShareAt y := by
  unfold CTxMemPool.ancestorShareAt
  rw [h.entries y hy, Option.map_map]
  rfl

lemma sum_add_neg_sum {M : Type} [AddCommGroup M] {s s' t : SetEntries} (hs' : s' ⊆ s \ t) (g : Uint256 → M) :
    ∑ y ∈ s, g y + -∑ y ∈ t ∩ s, g y = ∑ y ∈ s', g y + ∑ y ∈ (s \ t) \ s', g y := by
  rw [← sum_inter_add_sum_sdiff s t g, inter_comm s t, ← sum_sdiff hs',
    add_comm (∑ y ∈ t ∩ s, g y), add_neg_cancel_right, add_comm]

lemma Removed.countsDescendants (h : Removed pool pool' stage updateDescendants)
    (hD : CountsDescendants pool slackD) : CountsDescendants pool' (fun it => slackD it +
      ∑ y ∈ (pool.descendants it \ stage) \ pool'.descendants it, pool.descendantShareAt y) := by
  intro it e' he'
  obtain ⟨-, e, he, rfl⟩ := h.exists_coreAt he'
  have hsub : pool'.descendants it ⊆ pool.descendants it \ stage := by
    unfold descendants
    rw [h.keys]
    exact below_without_sub h.links it
  have hshare : ∑ y ∈ pool'.descendants it, pool'.descendantShareAt y =
      ∑ y ∈ pool'.descendants it, pool.descendantShareAt y :=
    sum_congr rfl (fun y hy => h.descendantShareAt (mem_sdiff.mp (hsub hy)).2)
  rw [CTxMemPoolEntry.descendantState_shift, hD it e he, hshare, add_right_comm, sum_add_neg_sum hsub]
  dsimp only
  abel

/-- Either descendants are updated, or no child stays behind. -/
def KeepsAncestors (pool : CTxMemPool sha256) (stage : SetEntries) (updateDescendants : Bool) : Prop :=
  updateDescendants = true ∨ ∀ x ∈ stage, pool.getMemPoolChildren x ⊆ stage

lemma mem_stage_of_reaches (hclosed : ∀ x ∈ stage, pool.getMemPoolChildren x ⊆ stage) {x y : Uint256}
    (hx : x ∈ stage) (hreach : Reaches pool.getMemPoolChildren x y) : y ∈ stage := by
  induction hreach with
  | refl => exact hx
  | tail _ hstep ih => exact hclosed _ ih hstep

lemma Removed.countsAncestors (h : Removed pool pool' stage updateDescendants)
    (hkeeps : KeepsAncestors pool stage updateDescendants) (hA : CountsAncestors pool slackA) :
    CountsAncestors pool' (fun it => slackA it +
      ∑ y ∈ (pool.ancestors it \ stage) \ pool'.ancestors it, pool.ancestorShareAt y) := by
  intro it e' he'
  obtain ⟨hit, e, he, rfl⟩ := h.exists_coreAt he'
  have hsub : pool'.ancestors it ⊆ pool.ancestors it \ stage := by
    unfold ancestors
    rw [h.keys]
    exact above_without_sub h.links it
  have hshare : ∑ y ∈ pool'.ancestors it, pool'.ancestorShareAt y =
      ∑ y ∈ pool'.ancestors it, pool.ancestorShareAt y :=
    sum_congr rfl (fun y hy => h.ancestorShareAt (mem_sdiff.mp (hsub hy)).2)
  have hshift : (if updateDescendants then -∑ r ∈ stage ∩ pool.ancestors it, pool.ancestorShareAt r else 0) =
      -∑ r ∈ stage ∩ pool.ancestors it, pool.ancestorShareAt r := by
    obtain rfl | hclosed := hkeeps
    · exact if_pos rfl
    · have hempty : stage ∩ pool.ancestors it = ∅ := by
        rw [← disjoint_iff_inter_eq_empty, disjoint_left]
        intro r hr hanc
        exact hit (mem_stage_of_reaches hclosed hr (mem_above.mp hanc).2)
      rw [hempty, sum_empty, neg_zero, ite_self]
  rw [CTxMemPoolEntry.ancestorState_shift, hA it e he, hshare, hshift, add_right_comm, sum_add_neg_sum hsub]
  dsimp only
  abel

lemma Removed.covered (h : Removed pool pool' stage updateDescendants)
    (hkeeps : KeepsAncestors pool stage updateDescendants) (hcovered : Covered pool) : Covered pool' := by
  obtain ⟨slackD, hD, hslackD⟩ := hcovered.descendants
  obtain ⟨slackA, hA, hslackA⟩ := hcovered.ancestors
  refine ⟨⟨_, h.countsDescendants hD, ?_⟩, ⟨_, h.countsAncestors hkeeps hA, ?_⟩⟩
  · intro it
    simp only [fst_add, snd_add, fst_sum, snd_sum]
    exact ⟨add_nonneg (hslackD it).1 (sum_nonneg fun y _ => (descendantShareAt_nonneg _ y).1),
      add_nonneg (hslackD it).2 (sum_nonneg fun y _ => (descendantShareAt_nonneg _ y).2)⟩
  · intro it
    simp only [fst_add, snd_add, fst_sum, snd_sum]
    exact ⟨add_nonneg (hslackA it).1 (sum_nonneg fun y _ => (ancestorShareAt_nonneg _ y).1),
      add_nonneg (hslackA it).2.1 (sum_nonneg fun y _ => (ancestorShareAt_nonneg _ y).2.1),
      add_nonneg (hslackA it).2.2 (sum_nonneg fun y _ => (ancestorShareAt_nonneg _ y).2.2)⟩

lemma Removed.exact (h : Removed pool pool' stage updateDescendants)
    (hkeeps : KeepsAncestors pool stage updateDescendants)
    (havoid : Avoidable stage pool.getMemPoolChildren pool'.getMemPoolChildren) (hexact : Exact pool) :
    Exact pool' := by
  have hD := h.countsDescendants hexact.descendants
  have hA := h.countsAncestors hkeeps hexact.ancestors
  refine ⟨?_, ?_⟩
  · intro it e' he'
    have hit := (h.exists_coreAt he').1
    have hsame : pool'.descendants it = pool.descendants it \ stage := by
      unfold descendants
      rw [h.keys]
      exact below_without h.links havoid hit
    rw [hD it e' he']
    dsimp only
    rw [hsame, Finset.sdiff_self, Finset.sum_empty, add_zero]
  · intro it e' he'
    have hit := (h.exists_coreAt he').1
    have hsame : pool'.ancestors it = pool.ancestors it \ stage := by
      unfold ancestors
      rw [h.keys]
      exact above_without h.links havoid hit
    rw [hA it e' he']
    dsimp only
    rw [hsame, Finset.sdiff_self, Finset.sum_empty, add_zero]

lemma Consistent.removeStaged (h : Consistent pool) (hstage : stage ⊆ pool.mapTx.keys)
    (hkeeps : KeepsAncestors pool stage updateDescendants) :
    ∃ pool', pool.removeStaged stage updateDescendants = some pool' ∧ Consistent pool' ∧
      Removed pool pool' stage updateDescendants := by
  obtain ⟨slackD, hD, hslackD⟩ := h.covered.descendants
  obtain ⟨slackA, hA, hslackA⟩ := h.covered.ancestors
  obtain ⟨pool', hpool', hremoved⟩ := exists_removeStaged h.linked hD hslackD hA hslackA hstage updateDescendants
  exact ⟨pool', hpool', ⟨hremoved.linked h.linked, hremoved.nextExact h.linked h.next,
    hremoved.covered hkeeps h.covered⟩, hremoved⟩

end Removed

section Added

variable {pool pool' : CTxMemPool sha256} {e : CTxMemPoolEntry sha256} {setAncestors : SetEntries}

/-- The set that `CalculateMemPoolAncestors` fills for a transaction. -/
def IsAncestorSet (pool : CTxMemPool sha256) (tx : CTransaction sha256) (setAncestors : SetEntries) : Prop :=
  ∀ y, y ∈ setAncestors ↔ ∃ p ∈ pool.parentsOf tx, Reaches pool.getMemPoolChildren y p

lemma Linked.ancestorSet_sub (hlinked : Linked pool) {tx : CTransaction sha256}
    (h : IsAncestorSet pool tx setAncestors) : setAncestors ⊆ pool.mapTx.keys := by
  intro y hy
  obtain ⟨p, hp, hreach⟩ := (h y).mp hy
  obtain rfl | ⟨z, hz, -⟩ := Relation.ReflTransGen.cases_head hreach
  · exact parentsOf_sub tx hp
  · exact (hlinked.dag.sub hz).1

lemma Added.keys (h : Added pool pool' e setAncestors) : pool'.mapTx.keys = insert e.tx.hash pool.mapTx.keys := by
  ext it
  rw [Finmap.mem_keys, mem_mapTx_iff_coreAt, mem_insert, Finmap.mem_keys, mem_mapTx_iff_coreAt]
  by_cases hit : it = e.tx.hash
  · rw [hit, h.entry]
    simp
  · rw [h.entries it hit, isSome_map]
    simp [hit]

lemma Added.coreAt (h : Added pool pool' e setAncestors) {it : Uint256} (hit : it ≠ e.tx.hash)
    {e₀ : CTxMemPoolEntry sha256} (he₀ : pool.coreAt it = some e₀) :
    pool'.coreAt it = some (e₀.shift (if it ∈ setAncestors then e.descendantShare else 0) 0) := by
  rw [h.entries it hit, he₀]
  rfl

lemma Added.linked (hlinked : Linked pool) (hnew : e.tx.hash ∉ pool.mapTx) (h : Added pool pool' e setAncestors) :
    Linked pool' := by
  refine ⟨?_, ?_, ?_⟩
  · rw [h.keys]
    exact hlinked.dag.withLeaf h.links (fun hmem => hnew (Finmap.mem_keys.mp hmem)) (parentsOf_sub e.tx)
  · intro it
    rw [h.domain, hlinked.domain, ← Finmap.mem_keys, ← Finmap.mem_keys, h.keys, mem_insert]
  · intro it e' he'
    by_cases hit : it = e.tx.hash
    · rw [hit, h.entry, Option.some.injEq] at he'
      rw [← he', hit]
      rfl
    · rw [h.entries it hit, map_eq_some_iff] at he'
      obtain ⟨e₀, he₀, rfl⟩ := he'
      exact hlinked.ids it e₀ he₀

lemma Added.nextExact (hnext : NextExact pool) (hnew : e.tx.hash ∉ pool.mapTx)
    (hfree : ∀ txin ∈ e.tx.vin, pool.mapNextTx.lookup txin.prevout = none) (h : Added pool pool' e setAncestors) :
    NextExact pool' := by
  intro o tx
  constructor
  · intro ho
    cases hold : pool.mapNextTx.lookup o with
    | some tx' =>
      have hkept := h.nextKept o tx' hold
      rw [ho, Option.some.injEq] at hkept
      rw [← hkept] at hold
      obtain ⟨it, e₀, he₀, rfl, hspends⟩ := (hnext o tx).mp hold
      have hit : it ≠ e.tx.hash := fun heq => hnew (heq ▸ mem_of_coreAt he₀)
      exact ⟨it, _, h.coreAt hit he₀, rfl, hspends⟩
    | none =>
      rw [h.nextNew o hold] at ho
      split_ifs at ho with hspends
      rw [← Option.some.inj ho]
      exact ⟨e.tx.hash, _, h.entry, rfl, hspends⟩
  · rintro ⟨it, e', he', rfl, txin, htxin, rfl⟩
    by_cases hit : it = e.tx.hash
    · rw [hit, h.entry, Option.some.injEq] at he'
      subst he'
      rw [h.nextNew _ (hfree txin htxin), if_pos ⟨txin, htxin, rfl⟩]
      rfl
    · rw [h.entries it hit, map_eq_some_iff] at he'
      obtain ⟨e₀, he₀, rfl⟩ := he'
      exact h.nextKept _ _ ((hnext _ _).mpr ⟨it, e₀, he₀, rfl, txin, htxin, rfl⟩)

lemma Added.descendantShareAt (h : Added pool pool' e setAncestors) (y : Uint256) :
    pool'.descendantShareAt y = if y = e.tx.hash then e.descendantShare else pool.descendantShareAt y := by
  split_ifs with hy
  · rw [hy, descendantShareAt_eq h.entry]
    rfl
  · unfold CTxMemPool.descendantShareAt
    rw [h.entries y hy, Option.map_map]
    rfl

lemma Added.ancestorShareAt (h : Added pool pool' e setAncestors) (y : Uint256) :
    pool'.ancestorShareAt y = if y = e.tx.hash then e.ancestorShare else pool.ancestorShareAt y := by
  split_ifs with hy
  · rw [hy, ancestorShareAt_eq h.entry]
    rfl
  · unfold CTxMemPool.ancestorShareAt
    rw [h.entries y hy, Option.map_map]
    rfl

lemma sum_ite_of_notMem {M : Type} [AddCommMonoid M] {s : SetEntries} {t : Uint256} (ht : t ∉ s) (m : M)
    (g : Uint256 → M) : ∑ y ∈ s, (if y = t then m else g y) = ∑ y ∈ s, g y := by
  apply sum_congr rfl
  intro y hy
  rw [if_neg]
  rintro rfl
  exact ht hy

lemma Added.countsDescendants {slack : Uint256 → ℤ × ℤ × ℤ} (hlinked : Linked pool)
    (hstate : e.descendantState = e.descendantShare) (hnew : e.tx.hash ∉ pool.mapTx)
    (hset : IsAncestorSet pool e.tx setAncestors) (h : Added pool pool' e setAncestors)
    (hD : CountsDescendants pool slack) :
    CountsDescendants pool' (fun it => if it = e.tx.hash then 0 else slack it) := by
  classical
  have hnewKey : e.tx.hash ∉ pool.mapTx.keys := fun hmem => hnew (Finmap.mem_keys.mp hmem)
  intro it e' he'
  simp only [h.descendantShareAt]
  by_cases hit : it = e.tx.hash
  · rw [hit, h.entry, Option.some.injEq] at he'
    rw [← he', if_pos hit, add_zero, hit]
    have hbelow : pool'.descendants e.tx.hash = {e.tx.hash} := by
      unfold descendants
      rw [h.keys]
      exact below_leaf h.links
    rw [hbelow, sum_singleton, if_pos rfl, CTxMemPoolEntry.descendantState_shift, add_zero]
    exact hstate
  · rw [if_neg hit]
    rw [h.entries it hit, map_eq_some_iff] at he'
    obtain ⟨e₀, he₀, rfl⟩ := he'
    have hbelow : pool'.descendants it =
        if it ∈ setAncestors then insert e.tx.hash (pool.descendants it) else pool.descendants it := by
      unfold descendants
      rw [h.keys, below_withLeaf hlinked.dag h.links hnewKey hit]
      simp only [hset it]
    have hnotMem : e.tx.hash ∉ pool.descendants it := fun hmem => hnewKey (mem_below.mp hmem).1
    rw [hbelow, CTxMemPoolEntry.descendantState_shift, hD it e₀ he₀]
    split_ifs with hanc
    · rw [sum_insert hnotMem, if_pos rfl, sum_ite_of_notMem hnotMem]
      abel
    · rw [add_zero, sum_ite_of_notMem hnotMem]

lemma Added.ancestors_new (hlinked : Linked pool) (hnew : e.tx.hash ∉ pool.mapTx)
    (hset : IsAncestorSet pool e.tx setAncestors) (h : Added pool pool' e setAncestors) :
    pool'.ancestors e.tx.hash = insert e.tx.hash setAncestors := by
  have hnewKey : e.tx.hash ∉ pool.mapTx.keys := fun hmem => hnew (Finmap.mem_keys.mp hmem)
  have hsub := hlinked.ancestorSet_sub hset
  ext y
  unfold ancestors
  rw [h.keys, mem_above_leaf hlinked.dag h.links hnewKey, mem_insert, hset y]
  exact or_congr Iff.rfl ⟨fun hy => hy.2, fun hy => ⟨hsub ((hset y).mpr hy), hy⟩⟩

lemma Added.ancestors_old (hlinked : Linked pool) (hnew : e.tx.hash ∉ pool.mapTx)
    (h : Added pool pool' e setAncestors) {it : Uint256} (hit : it ≠ e.tx.hash) :
    pool'.ancestors it = pool.ancestors it := by
  unfold ancestors
  rw [h.keys, above_withLeaf hlinked.dag h.links (fun hmem => hnew (Finmap.mem_keys.mp hmem)) hit]

lemma Added.countsAncestors {slack : Uint256 → ℤ × ℤ × ℤ × ℤ} (hlinked : Linked pool)
    (hstate : e.ancestorState = e.ancestorShare) (hnew : e.tx.hash ∉ pool.mapTx)
    (hset : IsAncestorSet pool e.tx setAncestors) (h : Added pool pool' e setAncestors)
    (hA : CountsAncestors pool slack) :
    CountsAncestors pool' (fun it => if it = e.tx.hash then 0 else slack it) := by
  have hnewKey : e.tx.hash ∉ pool.mapTx.keys := fun hmem => hnew (Finmap.mem_keys.mp hmem)
  have hsub := hlinked.ancestorSet_sub hset
  intro it e' he'
  simp only [h.ancestorShareAt]
  by_cases hit : it = e.tx.hash
  · rw [hit, h.entry, Option.some.injEq] at he'
    rw [← he', if_pos hit, add_zero, hit]
    have hnotMem : e.tx.hash ∉ setAncestors := fun hmem => hnewKey (hsub hmem)
    rw [h.ancestors_new hlinked hnew hset, sum_insert hnotMem, if_pos rfl, sum_ite_of_notMem hnotMem,
      CTxMemPoolEntry.ancestorState_shift]
    exact congrArg (· + _) hstate
  · rw [if_neg hit]
    rw [h.entries it hit, map_eq_some_iff] at he'
    obtain ⟨e₀, he₀, rfl⟩ := he'
    have hnotMem : e.tx.hash ∉ pool.ancestors it := fun hmem => hnewKey (mem_above.mp hmem).1
    rw [h.ancestors_old hlinked hnew hit, CTxMemPoolEntry.ancestorState_shift, hA it e₀ he₀, sum_ite_of_notMem hnotMem, add_zero]

lemma Consistent.addUnchecked {entry : CTxMemPoolEntry sha256} (h : Consistent pool) (hfresh : entry.Fresh)
    (hnew : entry.tx.hash ∉ pool.mapTx) (hself : ∀ txin ∈ entry.tx.vin, txin.prevout.hash ≠ entry.tx.hash)
    (hfree : ∀ txin ∈ entry.tx.vin, pool.mapNextTx.lookup txin.prevout = none)
    (hset : IsAncestorSet pool entry.tx setAncestors) :
    ∃ pool', pool.addUnchecked entry setAncestors = some pool' ∧ Consistent pool' ∧
      Added pool pool' (entry.withDelta (pool.mapDeltas.lookup entry.tx.hash)) setAncestors := by
  obtain ⟨slackD, hD, hslackD⟩ := h.covered.descendants
  obtain ⟨slackA, hA, hslackA⟩ := h.covered.ancestors
  obtain ⟨pool', hpool', hadded⟩ := exists_addUnchecked h.linked hD hslackD hfresh hnew hself
    (h.linked.ancestorSet_sub hset)
  generalize he : entry.withDelta (pool.mapDeltas.lookup entry.tx.hash) = e at hadded
  have htx : e.tx = entry.tx := by
    rw [← he]
    rfl
  rw [← htx] at hnew hfree hset
  refine ⟨pool', hpool', ⟨hadded.linked h.linked hnew, hadded.nextExact h.next hnew hfree, ?_⟩, hadded⟩
  refine ⟨⟨_, hadded.countsDescendants h.linked (he ▸ hfresh.descendantState_withDelta _) hnew hset hD, ?_⟩,
    ⟨_, hadded.countsAncestors h.linked (he ▸ hfresh.ancestorState_withDelta _) hnew hset hA, ?_⟩⟩
  · intro it
    split_ifs
    · exact ⟨le_rfl, le_rfl⟩
    · exact hslackD it
  · intro it
    split_ifs
    · exact ⟨le_rfl, le_rfl, le_rfl⟩
    · exact hslackA it

lemma Added.exact (hlinked : Linked pool) (hstateD : e.descendantState = e.descendantShare)
    (hstateA : e.ancestorState = e.ancestorShare) (hnew : e.tx.hash ∉ pool.mapTx)
    (hset : IsAncestorSet pool e.tx setAncestors) (h : Added pool pool' e setAncestors) (hexact : Exact pool) :
    Exact pool' := by
  refine ⟨?_, ?_⟩
  · intro it e' he'
    rw [h.countsDescendants hlinked hstateD hnew hset hexact.descendants it e' he']
    simp
  · intro it e' he'
    rw [h.countsAncestors hlinked hstateA hnew hset hexact.ancestors it e' he']
    simp

end Added

end CTxMemPool

/-! ## The operations that remove -/

namespace CTxMemPool

variable {sha256 : Bytes → Uint256}

section Closed

/-- A set is removed with all its descendants. -/
def ClosedRemoval (pool pool' : CTxMemPool sha256) : Prop :=
  ∃ (mapDeltas : Finmap (fun _ : Uint256 => ℤ)) (stage : SetEntries), stage ⊆ pool.mapTx.keys ∧
    (∀ x ∈ stage, pool.getMemPoolChildren x ⊆ stage) ∧
    (∀ it ∈ pool.mapTx, it ∉ stage → mapDeltas.lookup it = pool.mapDeltas.lookup it) ∧
    Removed { pool with mapDeltas := mapDeltas } pool' stage false

variable {pool pool' : CTxMemPool sha256}

lemma Consistent.withDeltas (h : Consistent pool) (mapDeltas : Finmap (fun _ : Uint256 => ℤ)) :
    Consistent { pool with mapDeltas := mapDeltas } :=
  ⟨⟨h.linked.dag, h.linked.domain, h.linked.ids⟩, h.next, ⟨h.covered.descendants, h.covered.ancestors⟩⟩

lemma Consistent.removeDescendantsOf (h : Consistent pool) (mapDeltas : Finmap (fun _ : Uint256 => ℤ))
    {s : SetEntries} (hs : s ⊆ pool.mapTx.keys)
    (hdeltas : ∀ it ∈ pool.mapTx, it ∉ s → mapDeltas.lookup it = pool.mapDeltas.lookup it) :
    ∃ pool', ({ pool with mapDeltas := mapDeltas } : CTxMemPool sha256).removeStaged (pool.descendantsOf s) false =
      some pool' ∧ Consistent pool' ∧ ClosedRemoval pool pool' ∧
      Removed { pool with mapDeltas := mapDeltas } pool' (pool.descendantsOf s) false := by
  have hclosed : ∀ x ∈ pool.descendantsOf s, pool.getMemPoolChildren x ⊆ pool.descendantsOf s := by
    intro x hx y hy
    rw [h.linked.mem_descendantsOf hs] at hx ⊢
    obtain ⟨z, hz, hreach⟩ := hx
    exact ⟨z, hz, Relation.ReflTransGen.tail hreach hy⟩
  have hsub : pool.descendantsOf s ⊆ pool.mapTx.keys := by
    intro y hy
    rw [h.linked.mem_descendantsOf hs] at hy
    obtain ⟨x, hx, hreach⟩ := hy
    exact h.linked.dag.mem_of_reaches (hs hx) hreach
  obtain ⟨pool', hpool', hcons, hremoved⟩ := (h.withDeltas mapDeltas).removeStaged hsub
    (show KeepsAncestors _ _ false from Or.inr hclosed)
  refine ⟨pool', hpool', hcons, ⟨mapDeltas, _, hsub, hclosed, ?_, hremoved⟩, hremoved⟩
  intro it hit hnot
  apply hdeltas it hit
  intro hmem
  exact hnot ((h.linked.mem_descendantsOf hs).mpr ⟨it, hmem, Relation.ReflTransGen.refl⟩)

lemma removed_refl (pool : CTxMemPool sha256) : Removed pool pool ∅ false := by
  refine ⟨?_, ?_, ⟨fun _ _ => by simp, fun _ _ => by simp, ?_⟩, fun _ => by simp, ?_, fun _ _ => rfl,
    fun _ _ h => h, rfl, by simp, by simp⟩
  · intro it _
    simp only [empty_inter, sum_empty, neg_zero, Bool.false_eq_true, if_false]
    exact (CTxMemPoolEntry.map_shift_zero _).symm
  all_goals exact fun it hit => absurd hit (notMem_empty it)

lemma closedRemoval_clearPrioritisation {hash : Uint256} (hnew : hash ∉ pool.mapTx) :
    ClosedRemoval pool (pool.clearPrioritisation hash) := by
  refine ⟨pool.mapDeltas.erase hash, ∅, empty_subset _, ?_, ?_, removed_refl _⟩
  · exact fun x hx => absurd hx (notMem_empty x)
  · intro it hit _
    rw [Finmap.lookup_erase_ne]
    rintro rfl
    exact hnew hit

end Closed

section Operations

variable {pool : CTxMemPool sha256}

lemma Consistent.mem_of_next (h : Consistent pool) {o : COutPoint} {tx : CTransaction sha256}
    (ho : pool.mapNextTx.lookup o = some tx) : tx.hash ∈ pool.mapTx := by
  obtain ⟨it, e, he, rfl, -⟩ := (h.next o tx).mp ho
  rw [h.linked.ids it e he]
  exact mem_of_coreAt he

lemma Consistent.removeRecursiveRoots_sub (h : Consistent pool) (origTx : CTransaction sha256) :
    ∀ it ∈ pool.removeRecursiveRoots origTx, it ∈ pool.mapTx := by
  intro it hit
  unfold removeRecursiveRoots at hit
  split_ifs at hit with hmem
  · rw [mem_singleton.mp hit]
    exact hmem
  · rw [List.mem_toFinset, List.mem_filterMap] at hit
    obtain ⟨i, -, hlookup⟩ := hit
    obtain ⟨tx, htx, rfl⟩ := map_eq_some_iff.mp hlookup
    exact h.mem_of_next htx

lemma Consistent.removeRecursive (h : Consistent pool) (origTx : CTransaction sha256) :
    ∃ pool', pool.removeRecursive origTx = some pool' ∧ Consistent pool' ∧ ClosedRemoval pool pool' := by
  have hroots := h.removeRecursiveRoots_sub origTx
  obtain ⟨pool', hpool', hcons, hclosed, -⟩ := h.removeDescendantsOf pool.mapDeltas
    (fun it hit => Finmap.mem_keys.mpr (hroots it hit)) (fun _ _ _ => rfl)
  refine ⟨pool', ?_, hcons, hclosed⟩
  unfold CTxMemPool.removeRecursive
  rw [if_pos hroots]
  exact hpool'

lemma Consistent.expire (h : Consistent pool) (time : ℤ) :
    ∃ pool', pool.expire time = some pool' ∧ Consistent pool' ∧ ClosedRemoval pool pool' := by
  obtain ⟨pool', hpool', hcons, hclosed, -⟩ := h.removeDescendantsOf pool.mapDeltas
    (s := pool.mapTx.keys.filter (fun it => pool.valueAt (·.nTime) it < time)) (filter_subset _ _)
    (fun _ _ _ => rfl)
  exact ⟨pool', hpool', hcons, hclosed⟩

lemma descendantsOf_singleton (it : Uint256) : pool.descendantsOf {it} = pool.calculateDescendants it ∅ := by
  unfold descendantsOf SetEntries.inOrder
  rw [sort_singleton]
  rfl

/-- What stands first in the order of `descendant_score` is an entry. -/
def PicksEntry (lowest : CTxMemPool sha256 → Uint256) : Prop :=
  ∀ pool : CTxMemPool sha256, pool.mapTx.keys.Nonempty → lowest pool ∈ pool.mapTx

lemma Consistent.trimToSizeLoop {lowest : CTxMemPool sha256 → Uint256} (hlowest : PicksEntry lowest)
    (dynamicMemoryUsage : CTxMemPool sha256 → ℕ) (sizelimit fuel : ℕ) (h : Consistent pool) :
    ∃ pool', trimToSizeLoop lowest dynamicMemoryUsage sizelimit fuel pool = some pool' ∧ Consistent pool' ∧
      Relation.ReflTransGen ClosedRemoval pool pool' := by
  induction fuel generalizing pool with
  | zero => exact ⟨pool, rfl, h, Relation.ReflTransGen.refl⟩
  | succ fuel ih =>
    unfold CTxMemPool.trimToSizeLoop
    split_ifs with hlarge
    · have hmem := hlowest pool hlarge.1
      obtain ⟨mid, hmid, hcons, hclosed, -⟩ := h.removeDescendantsOf pool.mapDeltas
        (singleton_subset_iff.mpr (Finmap.mem_keys.mpr hmem)) (fun _ _ _ => rfl)
      rw [descendantsOf_singleton] at hmid
      obtain ⟨pool', hpool', hcons', hreach⟩ := ih hcons
      refine ⟨pool', ?_, hcons', Relation.ReflTransGen.head hclosed hreach⟩
      rw [show pool.removeStaged _ false = some mid from hmid]
      exact hpool'
    · exact ⟨pool, rfl, h, Relation.ReflTransGen.refl⟩

lemma Consistent.trimToSize {lowest : CTxMemPool sha256 → Uint256} (hlowest : PicksEntry lowest)
    (dynamicMemoryUsage : CTxMemPool sha256 → ℕ) (sizelimit : ℕ) (h : Consistent pool) :
    ∃ pool', pool.trimToSize lowest dynamicMemoryUsage sizelimit = some pool' ∧ Consistent pool' ∧
      Relation.ReflTransGen ClosedRemoval pool pool' :=
  h.trimToSizeLoop hlowest dynamicMemoryUsage sizelimit _

lemma Consistent.removeConflict (h : Consistent pool) (tx : CTransaction sha256) (txin : CTxIn) :
    ∃ pool', pool.removeConflict tx txin = some pool' ∧ Consistent pool' ∧
      Relation.ReflTransGen ClosedRemoval pool pool' := by
  unfold CTxMemPool.removeConflict
  cases hnext : pool.mapNextTx.lookup txin.prevout with
  | none => exact ⟨pool, rfl, h, Relation.ReflTransGen.refl⟩
  | some txConflict =>
    dsimp only
    split_ifs with hsame
    · have hmem := h.mem_of_next hnext
      have hroots : (pool.clearPrioritisation txConflict.hash).removeRecursiveRoots txConflict = {txConflict.hash} := by
        unfold removeRecursiveRoots
        exact if_pos hmem
      obtain ⟨pool', hpool', hcons, hclosed, -⟩ := h.removeDescendantsOf (pool.mapDeltas.erase txConflict.hash)
        (singleton_subset_iff.mpr (Finmap.mem_keys.mpr hmem)) (fun it _ hit => by
          rw [Finmap.lookup_erase_ne (fun heq => hit (mem_singleton.mpr heq))])
      refine ⟨pool', ?_, hcons, Relation.ReflTransGen.single hclosed⟩
      unfold CTxMemPool.removeRecursive
      rw [hroots, if_pos]
      · exact hpool'
      · intro it hit
        rw [mem_singleton.mp hit]
        exact hmem
    · exact ⟨pool, rfl, h, Relation.ReflTransGen.refl⟩

lemma Consistent.removeConflicts (h : Consistent pool) (tx : CTransaction sha256) :
    ∃ pool', pool.removeConflicts tx = some pool' ∧ Consistent pool' ∧
      Relation.ReflTransGen ClosedRemoval pool pool' := by
  unfold CTxMemPool.removeConflicts
  generalize tx.vin = vin
  induction vin generalizing pool with
  | nil => exact ⟨pool, rfl, h, Relation.ReflTransGen.refl⟩
  | cons txin vin ih =>
    obtain ⟨mid, hmid, hcons, hreach⟩ := h.removeConflict tx txin
    obtain ⟨pool', hpool', hcons', hreach'⟩ := ih hcons
    refine ⟨pool', ?_, hcons', hreach.trans hreach'⟩
    rw [List.foldlM_cons, hmid]
    exact hpool'

lemma ClosedRemoval.mem {pool' : CTxMemPool sha256} (h : ClosedRemoval pool pool') {it : Uint256}
    (hit : it ∈ pool'.mapTx) : it ∈ pool.mapTx := by
  obtain ⟨mapDeltas, stage, -, -, -, hremoved⟩ := h
  exact (hremoved.mem_iff.mp hit).1

lemma mem_of_closedRemovals {pool' : CTxMemPool sha256} (h : Relation.ReflTransGen ClosedRemoval pool pool')
    {it : Uint256} (hit : it ∈ pool'.mapTx) : it ∈ pool.mapTx := by
  induction h with
  | refl => exact hit
  | tail _ hstep ih => exact ih (hstep.mem hit)

lemma Consistent.removeForBlockTx (h : Consistent pool) (tx : CTransaction sha256) :
    ∃ mid pool', pool.removeForBlockTx tx = some pool' ∧ Consistent pool' ∧
      (tx.hash ∈ pool.mapTx → Removed pool mid {tx.hash} true) ∧ (tx.hash ∉ pool.mapTx → mid = pool) ∧
      Relation.ReflTransGen ClosedRemoval mid pool' := by
  obtain ⟨mid, hmid, hcons, hremoved, hsame, hgone⟩ : ∃ mid, (if tx.hash ∈ pool.mapTx then
      pool.removeStaged {tx.hash} true else some pool) = some mid ∧ Consistent mid ∧
      (tx.hash ∈ pool.mapTx → Removed pool mid {tx.hash} true) ∧ (tx.hash ∉ pool.mapTx → mid = pool) ∧
      tx.hash ∉ mid.mapTx := by
    split_ifs with hmem
    · obtain ⟨mid, hmid, hcons, hremoved⟩ := h.removeStaged
        (singleton_subset_iff.mpr (Finmap.mem_keys.mpr hmem)) (show KeepsAncestors _ _ true from Or.inl rfl)
      refine ⟨mid, hmid, hcons, fun _ => hremoved, fun hnot => absurd hmem hnot, ?_⟩
      intro hmid'
      exact (hremoved.mem_iff.mp hmid').2 (mem_singleton_self _)
    · exact ⟨pool, rfl, h, fun hmem' => absurd hmem' hmem, fun _ => rfl, hmem⟩
  obtain ⟨last, hlast, hcons', hreach⟩ := hcons.removeConflicts tx
  refine ⟨mid, last.clearPrioritisation tx.hash, ?_, hcons'.withDeltas _, hremoved, hsame, ?_⟩
  · unfold CTxMemPool.removeForBlockTx
    rw [hmid]
    dsimp only [bind, Option.bind]
    rw [hlast]
    rfl
  · exact hreach.tail (closedRemoval_clearPrioritisation (fun hmem => hgone (mem_of_closedRemovals hreach hmem)))

lemma Consistent.removeForBlock (h : Consistent pool) (vtx : List (CTransaction sha256)) :
    ∃ pool', pool.removeForBlock vtx = some pool' ∧ Consistent pool' := by
  unfold CTxMemPool.removeForBlock
  induction vtx generalizing pool with
  | nil => exact ⟨pool, rfl, h⟩
  | cons tx vtx ih =>
    obtain ⟨-, next, hnext, hcons, -⟩ := h.removeForBlockTx tx
    obtain ⟨pool', hpool', hcons'⟩ := ih hcons
    refine ⟨pool', ?_, hcons'⟩
    rw [List.foldlM_cons, hnext]
    exact hpool'

end Operations

end CTxMemPool

end MutableBitcoin
