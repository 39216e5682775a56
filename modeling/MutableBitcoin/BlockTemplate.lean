import Mathlib.Algebra.BigOperators.Ring.Finset
import Mathlib.Data.Prod.Lex
import MutableBitcoin.PackageTotals

/-!
# Block templates are well formed

The transactions that `addPackageTxs` selects stand behind their ancestors in the pool, and the
limits of the block are kept.
-/

namespace MutableBitcoin
open Lib CTxMemPool List Prod

namespace BlockAssembler

variable {sha256 : Bytes → Uint256} {pool : CTxMemPool sha256} {settings : Settings} {index : AncestorScore pool}

section Order

/-- Every ancestor in the pool comes first. -/
def AncestorsFirst (pool : CTxMemPool sha256) (ids : List Uint256) : Prop :=
  ∀ front x behind, ids = front ++ x :: behind → ∀ y ∈ pool.ancestors x, y = x ∨ y ∈ front

lemma nCountWithAncestors_eq (hacc : Accounting pool) {it : Uint256} (hit : it ∈ pool.mapTx) :
    pool.valueAt (·.nCountWithAncestors) it = (pool.ancestors it).card := by
  obtain ⟨e, he⟩ := exists_coreAt hit
  have hcount := congrArg (fun s => s.2.2.1) (hacc.exact.ancestors it e he)
  rw [Pi.zero_apply, add_zero] at hcount
  rw [valueAt_eq_of_core (fun _ => rfl) he]
  refine hcount.trans ?_
  have hone : ∀ y ∈ pool.ancestors it, (pool.ancestorShareAt y).2.2.1 = 1 := by
    intro y hy
    obtain ⟨ey, hey⟩ := exists_coreAt (Finmap.mem_keys.mp (ancestors_sub_keys it hy))
    rw [ancestorShareAt_eq hey]
    rfl
  rw [snd_sum, snd_sum, fst_sum, Finset.sum_congr rfl hone]
  simp

lemma nCountWithAncestors_lt (hacc : Accounting pool) {x y : Uint256} (hx : x ∈ pool.mapTx) (hy : y ∈ pool.ancestors x)
    (hne : y ≠ x) : pool.valueAt (·.nCountWithAncestors) y < pool.valueAt (·.nCountWithAncestors) x := by
  have hymem := Finmap.mem_keys.mp (ancestors_sub_keys x hy)
  rw [nCountWithAncestors_eq hacc hymem, nCountWithAncestors_eq hacc hx, Int.ofNat_lt]
  apply Finset.card_lt_card
  refine (Finset.ssubset_iff_of_subset (ancestors_trans hy)).mpr ⟨x, ?_, ?_⟩
  · exact hacc.linked.dag.mem_above_self (Finmap.mem_keys.mpr hx)
  · intro hxy
    exact hne (hacc.linked.dag.antisymm (mem_above.mp hy).2 (mem_above.mp hxy).2)

instance : Std.Total (compareByAncestorCount pool) := ⟨by
  intro a b
  unfold compareByAncestorCount
  rcases lt_trichotomy (pool.valueAt (·.nCountWithAncestors) a) (pool.valueAt (·.nCountWithAncestors) b) with h | h | h
  · exact Or.inl (Or.inl h)
  · exact (le_total a b).imp (fun hab => Or.inr ⟨h, hab⟩) (fun hba => Or.inr ⟨h.symm, hba⟩)
  · exact Or.inr (Or.inl h)⟩

instance : IsTrans Uint256 (compareByAncestorCount pool) := ⟨by
  intro a b c hab hbc
  unfold compareByAncestorCount at *
  obtain hab | ⟨hab, hle⟩ := hab
  · obtain hbc | ⟨hbc, -⟩ := hbc
    · exact Or.inl (hab.trans hbc)
    · exact Or.inl (hbc ▸ hab)
  · obtain hbc | ⟨hbc, hle'⟩ := hbc
    · exact Or.inl (hab ▸ hbc)
    · exact Or.inr ⟨hab.trans hbc, hle.trans hle'⟩⟩

lemma pairwise_sortForBlock (package : SetEntries) :
    (sortForBlock pool package).Pairwise (compareByAncestorCount pool) := pairwise_insertionSort _ _

lemma nodup_sortForBlock (package : SetEntries) : (sortForBlock pool package).Nodup :=
  (perm_insertionSort _ _).nodup_iff.mpr (SetEntries.nodup_inOrder package)

lemma mem_front_of_sorted (hacc : Accounting pool) {package : SetEntries} (hsub : package ⊆ pool.mapTx.keys)
    {front behind : List Uint256} {x y : Uint256} (hsplit : sortForBlock pool package = front ++ x :: behind)
    (hy : y ∈ pool.ancestors x) (hpackage : y ∈ package) : y = x ∨ y ∈ front := by
  by_contra hnot
  rw [not_or] at hnot
  have hmem : y ∈ sortForBlock pool package := mem_sortForBlock.mpr hpackage
  have hx : x ∈ package := mem_sortForBlock.mp (by rw [hsplit]; simp)
  rw [hsplit, mem_append, mem_cons] at hmem
  have hbehind : y ∈ behind := by tauto
  have hsorted : (sortForBlock pool package).Pairwise (compareByAncestorCount pool) := pairwise_sortForBlock package
  rw [hsplit] at hsorted
  have hcompare := (pairwise_cons.mp (pairwise_append.mp hsorted).2.1).1 y hbehind
  have hlt := nCountWithAncestors_lt hacc (Finmap.mem_keys.mp (hsub hx)) hy hnot.1
  obtain hcompare | ⟨heq, -⟩ := hcompare
  · exact lt_asymm hlt hcompare
  · exact hlt.ne heq.symm

lemma AncestorsFirst.append (hacc : Accounting pool) {ids : List Uint256} (h : AncestorsFirst pool ids)
    {package : SetEntries} (hsub : package ⊆ pool.mapTx.keys)
    (hclosed : ∀ x ∈ package, ∀ y ∈ pool.ancestors x, y ∈ ids ∨ y ∈ package) :
    AncestorsFirst pool (ids ++ sortForBlock pool package) := by
  have hsorted : ∀ front x behind, sortForBlock pool package = front ++ x :: behind →
      ∀ y ∈ pool.ancestors x, y = x ∨ y ∈ ids ++ front := by
    intro front x behind hsplit y hy
    have hx : x ∈ package := mem_sortForBlock.mp (by rw [hsplit]; simp)
    obtain hids | hpackage := hclosed x hx y hy
    · exact Or.inr (mem_append_left front hids)
    · exact (mem_front_of_sorted hacc hsub hsplit hy hpackage).imp_right (mem_append_right ids)
  intro front x behind hsplit
  obtain ⟨rest, rfl, hrest⟩ | ⟨rest, hids, hrest⟩ := append_eq_append_iff.mp hsplit
  · exact hsorted rest x behind hrest
  · cases rest with
    | nil =>
      rw [append_nil] at hids
      rw [← hids]
      simpa using hsorted [] x behind hrest.symm
    | cons z rest =>
      obtain ⟨rfl, -⟩ := List.cons.inj hrest
      exact h front x rest hids

end Order

section Counters

variable {block : Template sha256}

/-- The totals of the template are those of its transactions. -/
structure Counted (pool : CTxMemPool sha256) (block : Template sha256) : Prop where
  entries : ∀ tx ∈ block.vtx, ∃ e, pool.mapTx.lookup tx.hash = some e ∧ e.tx = tx
  inBlock : block.inBlock = (block.vtx.map (·.hash)).toFinset
  weight : block.nBlockWeight = 4000 + (block.vtx.map fun tx => getTransactionWeight tx.toCMutableTransaction).sum
  sigOps : (block.nBlockSigOpsCost : ℤ) = 400 + (block.vtx.map fun tx => pool.valueAt (·.sigOpCost) tx.hash).sum
  fees : block.nFees = (block.vtx.map fun tx => pool.valueAt (·.nFee) tx.hash).sum

lemma Counted.reset : Counted pool (resetBlock : Template sha256) where
  entries _ htx := absurd htx not_mem_nil
  inBlock := rfl
  weight := rfl
  sigOps := rfl
  fees := rfl

variable (settings) in
lemma Counted.addToBlock (h : Counted pool block) (hlinked : Linked pool) {x : Uint256} (hx : x ∈ pool.mapTx) :
    Counted pool (addToBlock pool settings block x) ∧
      (addToBlock pool settings block x).vtx.map (·.hash) = block.vtx.map (·.hash) ++ [x] := by
  obtain ⟨e, he⟩ := Option.isSome_iff_exists.mp (Finmap.lookup_isSome.mpr hx)
  have hid : e.tx.hash = x := hlinked.ids x e.core (by rw [coreAt, he]; rfl)
  have hvalue : ∀ f : CTxMemPoolEntry sha256 → ℤ, pool.valueAt f e.tx.hash = f e := by
    intro f
    rw [valueAt, hid, he]
    rfl
  unfold BlockAssembler.addToBlock
  rw [he]
  refine ⟨⟨?_, ?_, ?_, ?_, ?_⟩, by simp [hid]⟩
  · intro tx htx
    obtain htx | htx := mem_append.mp htx
    · exact h.entries tx htx
    · rw [mem_singleton.mp htx]
      exact ⟨e, hid ▸ he, rfl⟩
  · ext z
    simp only [h.inBlock, hid, Finset.mem_insert, mem_toFinset, map_append, map_singleton, mem_append,
      mem_singleton]
    exact or_comm
  · simp [h.weight, add_assoc]
  · simp [h.sigOps, hvalue, add_assoc]
  · simp [h.fees, hvalue]

variable (settings) in
lemma Counted.foldl_addToBlock (h : Counted pool block) (hlinked : Linked pool) {l : List Uint256}
    (hl : ∀ x ∈ l, x ∈ pool.mapTx) :
    Counted pool (l.foldl (BlockAssembler.addToBlock pool settings) block) ∧
      (l.foldl (BlockAssembler.addToBlock pool settings) block).vtx.map (·.hash) = block.vtx.map (·.hash) ++ l := by
  induction l generalizing block with
  | nil => exact ⟨h, (append_nil _).symm⟩
  | cons x l ih =>
    obtain ⟨hcounted, hvtx⟩ := h.addToBlock settings hlinked (hl x mem_cons_self)
    obtain ⟨hcounted', hvtx'⟩ := ih hcounted (fun y hy => hl y (mem_cons_of_mem x hy))
    refine ⟨hcounted', hvtx'.trans ?_⟩
    rw [hvtx, append_assoc, singleton_append]

def weightOf (e : CTxMemPoolEntry sha256) : ℤ := getTransactionWeight e.tx.toCMutableTransaction

variable (settings) in
lemma limits_foldl_addToBlock (block : Template sha256) {l : List Uint256} (hl : ∀ x ∈ l, x ∈ pool.mapTx) :
    ((l.foldl (addToBlock pool settings) block).nBlockWeight : ℤ) =
        block.nBlockWeight + (l.map (pool.valueAt weightOf)).sum ∧
      ((l.foldl (addToBlock pool settings) block).nBlockSigOpsCost : ℤ) =
        block.nBlockSigOpsCost + (l.map (pool.valueAt (·.sigOpCost))).sum := by
  induction l generalizing block with
  | nil => simp
  | cons x l ih =>
    obtain ⟨e, he⟩ := Option.isSome_iff_exists.mp (Finmap.lookup_isSome.mpr (hl x mem_cons_self))
    obtain ⟨hweight, hsigops⟩ := ih (addToBlock pool settings block x)
      (fun y hy => hl y (mem_cons_of_mem x hy))
    rw [foldl_cons, hweight, hsigops, map_cons, map_cons, sum_cons, sum_cons]
    unfold addToBlock valueAt
    rw [he]
    constructor
    · simp only [Nat.cast_add, Option.map_some, Option.getD_some, weightOf]
      ring
    · simp only [Nat.cast_add, Option.map_some, Option.getD_some]
      ring

lemma weightOf_le (x : Uint256) : pool.valueAt weightOf x ≤ WITNESS_SCALE_FACTOR * pool.valueAt (·.getTxSize) x := by
  unfold valueAt
  cases pool.mapTx.lookup x with
  | none => simp
  | some e =>
    simp only [Option.map_some, Option.getD_some, weightOf, CTxMemPoolEntry.getTxSize, getVirtualTransactionSize,
      WITNESS_SCALE_FACTOR]
    omega

end Counters

/-- Size and signature operations are at least as large. -/
def Covers (totals totals' : ℤ × ℤ × ℤ) : Prop := totals'.1 ≤ totals.1 ∧ totals'.2.2 ≤ totals.2.2

/-- The modified set never counts too little. -/
def ModifiedCovers (pool : CTxMemPool sha256) (s : Selection sha256) : Prop :=
  ∀ y e, s.mapModifiedTx.lookup y = some e → Covers (totals e) (unconfirmedTotals pool s.block.inBlock y)

section Covering

variable {s : Selection sha256}

lemma packageShare_nonneg (x : Uint256) : 0 ≤ (packageShare pool x).1 ∧ 0 ≤ (packageShare pool x).2.2 := by
  unfold packageShare valueAt
  cases pool.mapTx.lookup x with
  | none => exact ⟨le_rfl, le_rfl⟩
  | some e => exact ⟨e.getTxSize_pos.le, Int.natCast_nonneg _⟩

lemma covers_sum {S T : SetEntries} (h : S ⊆ T) :
    Covers (∑ x ∈ T, packageShare pool x) (∑ x ∈ S, packageShare pool x) := by
  unfold Covers
  simp only [fst_sum, snd_sum]
  exact ⟨Finset.sum_le_sum_of_subset_of_nonneg h (fun x _ _ => (packageShare_nonneg x).1),
    Finset.sum_le_sum_of_subset_of_nonneg h (fun x _ _ => (packageShare_nonneg x).2)⟩

lemma ModifiedCovers.addPackage (hinv : SelectionInv pool s) (hacc : Accounting pool) (h : ModifiedCovers pool s)
    (iter : Uint256) : ModifiedCovers pool (addPackage pool settings s (pool.ancestors iter \ s.block.inBlock)) := by
  have hsub : pool.ancestors iter \ s.block.inBlock ⊆ pool.mapTx.keys :=
    Finset.sdiff_subset.trans (ancestors_sub_keys iter)
  intro y e' he'
  obtain ⟨hy, hout, hiter⟩ := hinv.mem_addPackage hacc.linked (Finmap.mem_of_lookup_eq_some he')
  have hpackage : y ∉ pool.ancestors iter \ s.block.inBlock := fun hy => hiter (Finset.mem_sdiff.mp hy).1
  have hcounted := (mem_addPackage_iff hpackage).mp (Finmap.mem_of_lookup_eq_some he')
  obtain ⟨e, he, htotals⟩ := exists_lookup_addPackage settings hpackage hcounted
  obtain rfl : e = e' := Option.some.inj (he.symm.trans he')
  have hbase : Covers (totals ((s.mapModifiedTx.lookup y).getD (modifiedEntry pool y)))
      (unconfirmedTotals pool s.block.inBlock y) := by
    cases hlookup : s.mapModifiedTx.lookup y with
    | some e₀ => exact h y e₀ hlookup
    | none =>
      rw [Option.getD_none, totals_modifiedEntry hacc hy]
      exact covers_sum Finset.sdiff_subset
  rw [inBlock_addPackage hsub, unconfirmedTotals_union Finset.disjoint_sdiff, htotals,
    sum_addedAbove hacc.linked hsub hy hpackage, sum_deltaShare]
  unfold Covers at hbase ⊢
  simp only [fst_add, snd_add, fst_sub, snd_sub]
  omega

end Covering

/-- What the selection keeps. -/
structure TemplateInv (pool : CTxMemPool sha256) (settings : Settings) (s : Selection sha256) : Prop where
  counted : Counted pool s.block
  nodup : (s.block.vtx.map (·.hash)).Nodup
  order : AncestorsFirst pool (s.block.vtx.map (·.hash))
  passed : ∀ x ∈ s.block.inBlock, ∀ e, pool.mapTx.lookup x = some e →
    isFinalTx e.tx.toCMutableTransaction settings.nHeight settings.nLockTimeCutoff = true ∧
      (settings.fIncludeWitness = false → e.tx.hasWitness = false)
  limits : s.block.inBlock.Nonempty →
    s.block.nBlockWeight < settings.nBlockMaxWeight ∧ s.block.nBlockSigOpsCost < MAX_BLOCK_SIGOPS_COST
  covers : ModifiedCovers pool s

section Run

variable {s t : Selection sha256} {c : Candidate}

lemma of_testTransactionsLoop {l : List Uint256} {nPotentialBlockSize : ℕ}
    (h : testTransactionsLoop pool settings l nPotentialBlockSize = true) {x : Uint256} (hx : x ∈ l)
    {e : CTxMemPoolEntry sha256} (he : pool.mapTx.lookup x = some e) :
    isFinalTx e.tx.toCMutableTransaction settings.nHeight settings.nLockTimeCutoff = true ∧
      (settings.fIncludeWitness = false → e.tx.hasWitness = false) := by
  induction l generalizing nPotentialBlockSize with
  | nil => exact absurd hx not_mem_nil
  | cons y l ih =>
    unfold testTransactionsLoop at h
    cases hy : pool.mapTx.lookup y with
    | none =>
      rw [hy] at h
      obtain rfl | hx := mem_cons.mp hx
      · rw [he] at hy
        cases hy
      · exact ih h hx
    | some ey =>
      rw [hy] at h
      dsimp only at h
      split_ifs at h with hfinal hwitness hneed hsize
      · obtain rfl | hx := mem_cons.mp hx
        · obtain rfl := Option.some.inj (he.symm.trans hy)
          exact ⟨by simpa using hfinal, by simpa using hwitness⟩
        · exact ih h hx
      · obtain rfl | hx := mem_cons.mp hx
        · obtain rfl := Option.some.inj (he.symm.trans hy)
          exact ⟨by simpa using hfinal, by simpa using hwitness⟩
        · exact ih h hx

lemma covers_of_chosen (hacc : Accounting pool) (hinv : SelectionInv pool s) (h : ModifiedCovers pool s)
    (hchosen : chooseEntry pool index s = some (c, t)) :
    Covers (c.packageSize, c.packageFees, c.packageSigOpsCost) (unconfirmedTotals pool t.block.inBlock c.iter) := by
  obtain ⟨e, he, hc, rfl⟩ | ⟨rest, hmi, hc, rfl⟩ := chooseEntry_cases hchosen
  · rw [hc]
    exact h c.iter e he
  · have hiter := hinv.next c.iter (by rw [hmi]; exact mem_cons_self)
    rw [hc]
    change Covers (totals (modifiedEntry pool c.iter)) _
    rw [totals_modifiedEntry hacc hiter]
    exact covers_sum Finset.sdiff_subset

lemma sum_sortForBlock (package : SetEntries) (f : Uint256 → ℤ) :
    ((sortForBlock pool package).map f).sum = ∑ x ∈ package, f x := by
  rw [← sum_toFinset f (nodup_sortForBlock package)]
  congr 1
  ext x
  rw [mem_toFinset, mem_sortForBlock]

lemma limits_addPackage {package : SetEntries} (hsub : package ⊆ pool.mapTx.keys)
    (hcovers : Covers (c.packageSize, c.packageFees, c.packageSigOpsCost) (∑ x ∈ package, packageShare pool x))
    (htest : testPackage settings s.block c.packageSize c.packageSigOpsCost = true) :
    (addPackage pool settings s package).block.nBlockWeight < settings.nBlockMaxWeight ∧
      (addPackage pool settings s package).block.nBlockSigOpsCost < MAX_BLOCK_SIGOPS_COST := by
  obtain ⟨hweight, hsigops⟩ := limits_foldl_addToBlock settings s.block
    (l := sortForBlock pool package) (fun x hx => Finmap.mem_keys.mp (hsub (mem_sortForBlock.mp hx)))
  rw [sum_sortForBlock] at hweight hsigops
  have hle : ∑ x ∈ package, pool.valueAt weightOf x ≤ WITNESS_SCALE_FACTOR * ∑ x ∈ package, pool.valueAt (·.getTxSize) x := by
    rw [Finset.mul_sum]
    exact Finset.sum_le_sum fun x _ => weightOf_le x
  unfold Covers at hcovers
  simp only [fst_sum, snd_sum, packageShare] at hcovers
  unfold testPackage at htest
  split_ifs at htest with hsize hcost
  have hscaled : (WITNESS_SCALE_FACTOR : ℤ) * ∑ x ∈ package, pool.valueAt (·.getTxSize) x ≤
      WITNESS_SCALE_FACTOR * c.packageSize := mul_le_mul_of_nonneg_left hcovers.1 (Int.natCast_nonneg _)
  constructor
  · have hlt : ((addPackage pool settings s package).block.nBlockWeight : ℤ) < settings.nBlockMaxWeight := by
      change ((List.foldl (addToBlock pool settings) s.block (sortForBlock pool package)).nBlockWeight : ℤ) < _
      rw [hweight]
      linarith only [hle, hscaled, hsize]
    exact_mod_cast hlt
  · have hlt : ((addPackage pool settings s package).block.nBlockSigOpsCost : ℤ) < MAX_BLOCK_SIGOPS_COST := by
      change ((List.foldl (addToBlock pool settings) s.block (sortForBlock pool package)).nBlockSigOpsCost : ℤ) < _
      rw [hsigops]
      linarith only [hcovers.2, hcost]
    exact_mod_cast hlt

lemma block_dropFailed (c : Candidate) : (dropFailed s c).block = s.block ∧ (dropFailed s c).mi = s.mi := by
  unfold dropFailed
  split_ifs
  · exact ⟨rfl, rfl⟩
  · exact ⟨rfl, rfl⟩

lemma lookup_of_dropFailed {y : Uint256} {e : CTxMemPoolModifiedEntry}
    (h : (dropFailed s c).mapModifiedTx.lookup y = some e) : s.mapModifiedTx.lookup y = some e := by
  unfold dropFailed at h
  split_ifs at h
  · by_cases hy : y = c.iter
    · rw [hy, Finmap.lookup_erase] at h
      cases h
    · exact (Finmap.lookup_erase_ne hy).symm.trans h
  · exact h

lemma TemplateInv.of_sub (h : TemplateInv pool settings s) (hblock : t.block = s.block)
    (hmodified : ∀ y e, t.mapModifiedTx.lookup y = some e → s.mapModifiedTx.lookup y = some e) :
    TemplateInv pool settings t := by
  refine ⟨hblock ▸ h.counted, hblock ▸ h.nodup, hblock ▸ h.order, hblock ▸ h.passed, hblock ▸ h.limits, ?_⟩
  intro y e he
  rw [hblock]
  exact h.covers y e (hmodified y e he)

lemma TemplateInv.start : TemplateInv pool settings (selectionStart pool index resetBlock) where
  counted := Counted.reset
  nodup := nodup_nil
  order front x behind h := by simp [selectionStart, resetBlock] at h
  passed x hx := absurd hx (Finset.notMem_empty x)
  limits h := absurd h Finset.not_nonempty_empty
  covers y e he := by
    rw [mapModifiedTx_start] at he
    cases he

lemma TemplateInv.addPackage (h : TemplateInv pool settings s) (hinv : SelectionInv pool s) (hacc : Accounting pool)
    (hcovers : Covers (c.packageSize, c.packageFees, c.packageSigOpsCost) (unconfirmedTotals pool s.block.inBlock c.iter))
    (hlimits : testPackage settings s.block c.packageSize c.packageSigOpsCost = true)
    (htransactions : testPackageTransactions pool settings s.block (pool.ancestors c.iter \ s.block.inBlock) = true) :
    TemplateInv pool settings (addPackage pool settings s (pool.ancestors c.iter \ s.block.inBlock)) := by
  have hsub : pool.ancestors c.iter \ s.block.inBlock ⊆ pool.mapTx.keys :=
    Finset.sdiff_subset.trans (ancestors_sub_keys c.iter)
  have hids : ∀ x, x ∈ s.block.vtx.map (·.hash) ↔ x ∈ s.block.inBlock := by
    intro x
    rw [h.counted.inBlock, mem_toFinset]
  obtain ⟨hcounted, hvtx⟩ := h.counted.foldl_addToBlock settings hacc.linked
    (l := sortForBlock pool (pool.ancestors c.iter \ s.block.inBlock))
    (fun x hx => Finmap.mem_keys.mp (hsub (mem_sortForBlock.mp hx)))
  have hvtx : (BlockAssembler.addPackage pool settings s (pool.ancestors c.iter \ s.block.inBlock)).block.vtx.map (·.hash) =
      s.block.vtx.map (·.hash) ++ sortForBlock pool (pool.ancestors c.iter \ s.block.inBlock) := hvtx
  refine ⟨hcounted, ?_, ?_, ?_, ?_, h.covers.addPackage hinv hacc c.iter⟩
  · rw [hvtx]
    refine h.nodup.append (nodup_sortForBlock _) ?_
    intro x hx hpackage
    exact (Finset.mem_sdiff.mp (mem_sortForBlock.mp hpackage)).2 ((hids x).mp hx)
  · rw [hvtx]
    apply h.order.append hacc hsub
    intro x hx y hy
    rw [hids, Finset.mem_sdiff]
    have habove := ancestors_trans (Finset.mem_sdiff.mp hx).1 hy
    tauto
  · rw [inBlock_addPackage hsub]
    intro x hx e he
    obtain hx | hx := Finset.mem_union.mp hx
    · exact h.passed x hx e he
    · exact of_testTransactionsLoop htransactions (SetEntries.mem_inOrder.mpr hx) he
  · intro _
    exact limits_addPackage hsub hcovers hlimits

lemma finished_cases (h : addPackageStep pool settings index s = .finished t) :
    t.block = s.block ∧ ∀ y e, t.mapModifiedTx.lookup y = some e → s.mapModifiedTx.lookup y = some e := by
  unfold addPackageStep at h
  split_ifs at h with hstale
  cases hchosen : chooseEntry pool index s with
  | none =>
    rw [hchosen] at h
    obtain rfl := LoopResult.finished.inj h
    exact ⟨rfl, fun _ _ he => he⟩
  | some chosen =>
    obtain ⟨c, s'⟩ := chosen
    obtain ⟨hm, hblock⟩ := chooseEntry_keeps hchosen
    rw [hchosen] at h
    dsimp only at h
    unfold evaluate at h
    dsimp only at h
    split_ifs at h
    · obtain rfl := LoopResult.finished.inj h
      exact ⟨hblock, fun y e he => hm ▸ he⟩
    · obtain rfl := LoopResult.finished.inj h
      exact ⟨(block_dropFailed c).1.trans hblock, fun y e he => hm ▸ lookup_of_dropFailed he⟩

lemma SelectionInv.no_assertion (hinv : SelectionInv pool s) :
    addPackageStep pool settings index s ≠ .assertionFailed := by
  intro h
  unfold addPackageStep at h
  split_ifs at h with hstale
  cases hchosen : chooseEntry pool index s with
  | none =>
    rw [hchosen] at h
    cases h
  | some chosen =>
    obtain ⟨c, s'⟩ := chosen
    obtain ⟨-, hout, -⟩ := hinv.chosen (Bool.eq_false_of_not_eq_true hstale) hchosen
    rw [hchosen] at h
    dsimp only at h
    unfold evaluate at h
    dsimp only at h
    rw [if_neg hout] at h
    split_ifs at h

lemma TemplateInv.step (h : TemplateInv pool settings s) (hinv : SelectionInv pool s) (hacc : Accounting pool)
    (hstep : addPackageStep pool settings index s = .running t) : TemplateInv pool settings t := by
  obtain ⟨-, rfl⟩ | ⟨c, s', hstale, hchosen, heval⟩ := addPackageStep_cases hstep
  · exact h.of_sub rfl (fun _ _ he => he)
  · obtain ⟨hiter, hout, hinv'⟩ := hinv.chosen hstale hchosen
    obtain ⟨hm, hblock⟩ := chooseEntry_keeps hchosen
    have h' : TemplateInv pool settings s' := h.of_sub hblock (fun y e he => hm ▸ he)
    obtain ⟨-, n, rfl⟩ | ⟨haccepted, rfl⟩ := evaluate_cases heval
    · exact h'.of_sub (block_dropFailed c).1 (fun _ _ he => lookup_of_dropFailed he)
    · rw [packageOf_eq hacc.linked hiter hout]
      refine h'.addPackage hinv' hacc (covers_of_chosen hacc hinv h.covers hchosen) haccepted.limits ?_
      rw [← packageOf_eq hacc.linked hiter hout]
      exact haccepted.transactions

/-- What an iteration after which the loop goes on decreases: the entries outside the block, and where they stay
the same, the entries that are still listed. -/
def remaining (pool : CTxMemPool sha256) (s : Selection sha256) : ℕ ×ₗ ℕ :=
  toLex ((pool.mapTx.keys \ s.block.inBlock).card, s.mi.length + s.mapModifiedTx.keys.card)

lemma remaining_lt_of_listed (hblock : t.block = s.block)
    (h : t.mi.length + t.mapModifiedTx.keys.card < s.mi.length + s.mapModifiedTx.keys.card) :
    remaining pool t < remaining pool s := by
  unfold remaining
  rw [hblock]
  exact Prod.Lex.toLex_lt_toLex.mpr (Or.inr ⟨rfl, h⟩)

lemma remaining_addPackage (hc : c.iter ∈ pool.mapTx)
    (hout : c.iter ∉ s.block.inBlock) {package : SetEntries} (hpackage : package ⊆ pool.mapTx.keys) (hiter : c.iter ∈ package) :
    remaining pool (addPackage pool settings s package) < remaining pool s := by
  apply Prod.Lex.toLex_lt_toLex.mpr
  left
  rw [inBlock_addPackage hpackage]
  apply Finset.card_lt_card
  refine (Finset.ssubset_iff_of_subset (Finset.sdiff_subset_sdiff le_rfl Finset.subset_union_left)).mpr ⟨c.iter, ?_, ?_⟩
  · exact Finset.mem_sdiff.mpr ⟨Finmap.mem_keys.mpr hc, hout⟩
  · rw [Finset.mem_sdiff, Finset.mem_union]
    tauto

lemma remaining_dropFailed {s' : Selection sha256} (hchosen : chooseEntry pool index s = some (c, s')) (n : ℕ) :
    remaining pool { dropFailed s' c with nConsecutiveFailed := n } < remaining pool s := by
  obtain ⟨e, he, hc, rfl⟩ | ⟨rest, hmi, hc, rfl⟩ := chooseEntry_cases hchosen
  · apply remaining_lt_of_listed (block_dropFailed c).1
    have hmem : c.iter ∈ s'.mapModifiedTx.keys := Finmap.mem_keys.mpr (Finmap.mem_of_lookup_eq_some he)
    have hdrop : dropFailed s' c =
        { s' with mapModifiedTx := s'.mapModifiedTx.erase c.iter, failedTx := insert c.iter s'.failedTx } := by
      rw [hc]
      rfl
    rw [hdrop]
    dsimp only
    rw [keys_erase]
    exact Nat.add_lt_add_left (Finset.card_erase_lt_of_mem hmem) _
  · have hdrop : dropFailed { s with mi := rest } c = { s with mi := rest } := by
      rw [hc]
      rfl
    rw [hdrop]
    refine remaining_lt_of_listed (s := s) rfl ?_
    rw [hmi]
    simp

lemma remaining_lt_of_step (hinv : SelectionInv pool s) (hlinked : Linked pool)
    (hstep : addPackageStep pool settings index s = .running t) : remaining pool t < remaining pool s := by
  obtain ⟨hstale, rfl⟩ | ⟨c, s', hstale, hchosen, heval⟩ := addPackageStep_cases hstep
  · refine remaining_lt_of_listed (s := s) rfl ?_
    unfold staleNext at hstale
    cases hmi : s.mi with
    | nil =>
      rw [hmi] at hstale
      cases hstale
    | cons it rest => simp
  · obtain ⟨hiter, hout, hinv'⟩ := hinv.chosen hstale hchosen
    obtain ⟨-, n, rfl⟩ | ⟨-, rfl⟩ := evaluate_cases heval
    · exact remaining_dropFailed hchosen n
    · rw [packageOf_eq hlinked hiter hout]
      have hself : c.iter ∈ pool.ancestors c.iter \ s'.block.inBlock :=
        Finset.mem_sdiff.mpr ⟨hlinked.dag.mem_above_self (Finmap.mem_keys.mpr hiter), hout⟩
      refine (remaining_addPackage hiter hout (Finset.sdiff_subset.trans (ancestors_sub_keys c.iter)) hself).trans_le ?_
      obtain ⟨-, -, -, rfl⟩ | ⟨rest, hmi, -, rfl⟩ := chooseEntry_cases hchosen
      · exact le_rfl
      · apply le_of_lt
        refine remaining_lt_of_listed (s := s) rfl ?_
        rw [hmi]
        simp

lemma TemplateInv.ends (h : TemplateInv pool settings s) (hinv : SelectionInv pool s) (hacc : Accounting pool) :
    ∃ fuel t, addPackageTxs pool settings index fuel s = .finished t ∧ TemplateInv pool settings t := by
  induction hmeasure : remaining pool s using WellFoundedLT.induction generalizing s with
  | ind n ih =>
    subst hmeasure
    cases hstep : addPackageStep pool settings index s with
    | running t =>
      obtain ⟨fuel, t', hrun, ht'⟩ := ih _ (remaining_lt_of_step hinv hacc.linked hstep) (h.step hinv hacc hstep)
        (hinv.step hacc.linked hstep) rfl
      refine ⟨fuel + 1, t', ?_, ht'⟩
      unfold addPackageTxs
      rw [hstep]
      exact hrun
    | finished t =>
      obtain ⟨hblock, hmodified⟩ := finished_cases hstep
      refine ⟨1, t, ?_, h.of_sub hblock hmodified⟩
      unfold addPackageTxs
      rw [hstep]
    | assertionFailed => exact absurd hstep hinv.no_assertion

lemma SelectionInv.no_assertion_run (hinv : SelectionInv pool s) (hlinked : Linked pool) (fuel : ℕ) :
    addPackageTxs pool settings index fuel s ≠ .assertionFailed := by
  induction fuel generalizing s with
  | zero => nofun
  | succ fuel ih =>
    unfold addPackageTxs
    cases hstep : addPackageStep pool settings index s with
    | running t => exact ih (hinv.step hlinked hstep)
    | finished t => nofun
    | assertionFailed => exact absurd hstep hinv.no_assertion

end Run

/-- A template whose transactions are distinct entries of the pool that pass the tests, each of them after its
ancestors in the pool, and whose counters are theirs and within the limits. -/
structure WellFormed (pool : CTxMemPool sha256) (settings : Settings) (block : Template sha256) : Prop where
  entries : ∀ tx ∈ block.vtx, ∃ e, pool.mapTx.lookup tx.hash = some e ∧ e.tx = tx
  distinct : (block.vtx.map (·.hash)).Nodup
  ancestors : ∀ front tx behind, block.vtx = front ++ tx :: behind → ∀ y, Relation.TransGen pool.Spends tx.hash y →
    ∃ tx' ∈ front, tx'.hash = y
  final : ∀ tx ∈ block.vtx, isFinalTx tx.toCMutableTransaction settings.nHeight settings.nLockTimeCutoff = true
  witness : settings.fIncludeWitness = false → ∀ tx ∈ block.vtx, tx.hasWitness = false
  limits : block.vtx ≠ [] →
    block.nBlockWeight < settings.nBlockMaxWeight ∧ block.nBlockSigOpsCost < MAX_BLOCK_SIGOPS_COST
  weight : block.nBlockWeight = 4000 + (block.vtx.map fun tx => getTransactionWeight tx.toCMutableTransaction).sum
  sigOps : (block.nBlockSigOpsCost : ℤ) = 400 + (block.vtx.map fun tx => pool.valueAt (·.sigOpCost) tx.hash).sum
  fees : block.nFees = (block.vtx.map fun tx => pool.valueAt (·.nFee) tx.hash).sum

section Conclusion

variable {s : Selection sha256}

lemma mem_ancestors_of_transGen (hacc : Accounting pool) {x y : Uint256} (hx : x ∈ pool.mapTx)
    (h : Relation.TransGen pool.Spends x y) : y ∈ pool.ancestors x ∧ y ≠ x := by
  have hreaches : ∀ {a b}, Relation.ReflTransGen pool.Spends a b → Reaches pool.getMemPoolChildren b a := by
    intro a b hab
    exact hacc.reaches_iff.mpr (Relation.reflTransGen_swap.mpr hab)
  refine ⟨(hacc.linked.mem_ancestors hx).mpr (hreaches h.to_reflTransGen), ?_⟩
  rintro rfl
  obtain ⟨z, hz, hrest⟩ := Relation.TransGen.head'_iff.mp h
  have hchild := hacc.linked.dag.symm.mp ((hacc.parents y z).mpr hz)
  exact hacc.linked.dag.acyclic hchild (hreaches hrest)

lemma TemplateInv.wellFormed (h : TemplateInv pool settings s) (hacc : Accounting pool) :
    WellFormed pool settings s.block := by
  have hin : ∀ tx ∈ s.block.vtx, tx.hash ∈ s.block.inBlock := by
    intro tx htx
    rw [h.counted.inBlock, mem_toFinset]
    exact mem_map_of_mem htx
  refine ⟨h.counted.entries, h.nodup, ?_, ?_, ?_, ?_, h.counted.weight, h.counted.sigOps, h.counted.fees⟩
  · intro front tx behind hsplit y hy
    obtain ⟨e, he, -⟩ := h.counted.entries tx (by rw [hsplit]; simp)
    obtain ⟨hmem, hne⟩ := mem_ancestors_of_transGen hacc (Finmap.mem_of_lookup_eq_some he) hy
    have hids : s.block.vtx.map (·.hash) = front.map (·.hash) ++ tx.hash :: behind.map (·.hash) := by
      rw [hsplit, map_append, map_cons]
    exact mem_map.mp ((h.order _ _ _ hids y hmem).resolve_left hne)
  · intro tx htx
    obtain ⟨e, he, rfl⟩ := h.counted.entries tx htx
    exact (h.passed _ (hin _ htx) e he).1
  · intro hinclude tx htx
    obtain ⟨e, he, rfl⟩ := h.counted.entries tx htx
    exact (h.passed _ (hin _ htx) e he).2 hinclude
  · intro hne
    obtain ⟨tx, htx⟩ := exists_mem_of_ne_nil _ hne
    exact h.limits ⟨tx.hash, hin tx htx⟩

end Conclusion

/-- `addPackageTxs` comes to an end without failing its assertion, and leaves a well-formed template. -/
theorem addPackageTxs_wellFormed (pool : CTxMemPool sha256) (hacc : Accounting pool) (settings : Settings)
    (index : AncestorScore pool) :
    (∀ fuel, addPackageTxs pool settings index fuel (selectionStart pool index resetBlock) ≠ .assertionFailed) ∧
      ∃ fuel s, addPackageTxs pool settings index fuel (selectionStart pool index resetBlock) = .finished s ∧
        WellFormed pool settings s.block := by
  refine ⟨SelectionInv.start.no_assertion_run hacc.linked, ?_⟩
  obtain ⟨fuel, s, hrun, hs⟩ := TemplateInv.start.ends SelectionInv.start hacc
  exact ⟨fuel, s, hrun, hs.wellFormed hacc⟩

/-- The chain of three transactions. -/
theorem addPackageTxs_wellFormed_raisedChain : ∃ pool₀ pool₁ pool₂ pool : CTxMemPool cSHA256,
    CTxMemPool.empty.prioritiseTransaction secondLink.hash 500 = some pool₀ ∧
    pool₀.addUnchecked (linkEntry firstLink) ∅ = some pool₁ ∧
    pool₁.addUnchecked (linkEntry secondLink) {firstLink.hash} = some pool₂ ∧
    pool₂.addUnchecked (linkEntry thirdLink) {firstLink.hash, secondLink.hash} = some pool ∧
    ∃ index : AncestorScore pool, index.mapTx = [secondLink.hash, thirdLink.hash, firstLink.hash] ∧
      ∃ fuel s, addPackageTxs pool freeSettings index fuel (selectionStart pool index resetBlock) = .finished s ∧
        WellFormed pool freeSettings s.block := by
  obtain ⟨pool₀, pool₁, pool₂, pool, hrun₀, hrun₁, hrun₂, hrun, hraised, hacc₂, hacc, e, htx, hadded, hset, hnew⟩ :=
    exists_raisedChain
  refine ⟨pool₀, pool₁, pool₂, pool, hrun₀, hrun₁, hrun₂, hrun,
    listedScore pool _ (mem_raisedOrder (isChain_raised hraised hacc₂ htx hadded hset hnew)) (by decide +kernel), rfl, ?_⟩
  exact (addPackageTxs_wellFormed pool hacc freeSettings _).2

end BlockAssembler

end MutableBitcoin
