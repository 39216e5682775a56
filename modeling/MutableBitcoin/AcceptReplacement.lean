import MutableBitcoin.MempoolCollision
import MutableBitcoin.MempoolExact
import MutableBitcoin.MempoolIndex

/-!
# Replacement in the memory pool

A call of `AcceptToMemoryPoolWorker` changes the pool only after all checks. It then removes the entries that spend
an input of the transaction, with all their descendants, and the new entry pays for them.
-/

namespace MutableBitcoin
open Lib Option

variable {sha256 : Bytes → Uint256}

namespace CTxMemPool

section Spent

variable {pool pool' : CTxMemPool sha256} {tx : CTransaction sha256}

/-- No two entries spend the same output. -/
def NoDoubleSpend (pool : CTxMemPool sha256) : Prop :=
  ∀ x y ex ey, pool.mapTx.lookup x = some ex → pool.mapTx.lookup y = some ey →
    ∀ txin ∈ ex.tx.vin, ∀ txin' ∈ ey.tx.vin, txin.prevout = txin'.prevout → x = y

lemma keptFrom_limitMempoolSize {ctx : AcceptContext sha256} (h : limitMempoolSize ctx pool = some pool') :
    KeptFrom pool pool' := by
  unfold limitMempoolSize at h
  obtain ⟨mid, hmid, h⟩ := bind_eq_some_iff.mp h
  exact (keptFrom_removeStaged hmid).trans (keptFrom_trimToSizeLoop h)

lemma NoDoubleSpend.kept (h : NoDoubleSpend pool) (hkept : KeptFrom pool pool') : NoDoubleSpend pool' := by
  intro x y ex' ey' hx' hy' txin htxin txin' htxin' heq
  obtain ⟨ex, hx, htx⟩ := hkept x ex' hx'
  obtain ⟨ey, hy, hty⟩ := hkept y ey' hy'
  exact h x y ex ey hx hy txin (htx ▸ htxin) txin' (hty ▸ htxin') heq

lemma lookup_coreAt {it : Uint256} {e : CTxMemPoolEntry sha256} (h : pool.mapTx.lookup it = some e) :
    pool.coreAt it = some e.core := by
  rw [coreAt, h]
  rfl

lemma Consistent.noDoubleSpend (h : Consistent pool) : NoDoubleSpend pool := by
  intro x y ex ey hx hy txin htxin txin' htxin' heq
  have hspentX := (h.next txin.prevout ex.tx).mpr ⟨x, _, lookup_coreAt hx, rfl, txin, htxin, rfl⟩
  have hspentY := (h.next txin.prevout ey.tx).mpr ⟨y, _, lookup_coreAt hy, rfl, txin', htxin', heq.symm⟩
  rw [hspentX, Option.some.injEq] at hspentY
  calc x = ex.tx.hash := (h.linked.ids x _ (lookup_coreAt hx)).symm
    _ = ey.tx.hash := by rw [hspentY]
    _ = y := h.linked.ids y ey.core (lookup_coreAt hy)

lemma Consistent.noDoubleSpend_insertEntry {entry : CTxMemPoolEntry sha256} (h : Consistent pool)
    (hnew : entry.tx.hash ∉ pool.mapTx)
    (hfree : ∀ txin ∈ entry.tx.vin, pool.mapNextTx.lookup txin.prevout = none) :
    NoDoubleSpend (pool.insertEntry entry) := by
  have hmap : (pool.insertEntry entry).mapTx = pool.mapTx.insert entry.tx.hash entry := if_neg hnew
  -- An entry that spends an input of the new one would be in `mapNextTx`.
  have hno : ∀ it e, pool.mapTx.lookup it = some e → ∀ txin ∈ e.tx.vin, ∀ txin' ∈ entry.tx.vin,
      txin.prevout ≠ txin'.prevout := by
    intro it e he txin htxin txin' htxin' heq
    have hspent := (h.next txin'.prevout e.tx).mpr ⟨it, _, lookup_coreAt he, rfl, txin, htxin, heq⟩
    rw [hfree txin' htxin'] at hspent
    cases hspent
  intro x y ex ey hx hy txin htxin txin' htxin' heq
  rw [hmap, lookup_insert_apply] at hx hy
  split_ifs at hx hy with hxNew hyNew hyNew
  · rw [hxNew, hyNew]
  · obtain rfl := Option.some.inj hx
    exact absurd heq.symm (hno y ey hy txin' htxin' txin htxin)
  · obtain rfl := Option.some.inj hy
    exact absurd heq (hno x ex hx txin htxin txin' htxin')
  · exact h.noDoubleSpend x y ex ey hx hy txin htxin txin' htxin' heq

/-- The entry spends an input of `tx`. -/
def ConflictsWith (pool : CTxMemPool sha256) (tx : CTransaction sha256) (it : Uint256) : Prop :=
  ∃ e, pool.mapTx.lookup it = some e ∧ ∃ txin' ∈ e.tx.vin, ∃ txin ∈ tx.vin, txin'.prevout = txin.prevout

/-- A conflict or a descendant of one. -/
def Evicted (pool : CTxMemPool sha256) (tx : CTransaction sha256) (it : Uint256) : Prop :=
  ∃ x, pool.ConflictsWith tx x ∧ Relation.ReflTransGen (fun parent child => pool.Spends child parent) x it

/-- An entry that `tx` spends from, or an ancestor of one. -/
def IsAncestorOf (pool : CTxMemPool sha256) (tx : CTransaction sha256) (it : Uint256) : Prop :=
  ∃ txin ∈ tx.vin, txin.prevout.hash ∈ pool.mapTx ∧ Relation.ReflTransGen pool.Spends txin.prevout.hash it

lemma Consistent.mem_conflictsOf_iff (h : Consistent pool) {it : Uint256} :
    it ∈ pool.conflictsOf tx.vin ↔ pool.ConflictsWith tx it := by
  rw [mem_conflictsOf]
  constructor
  · rintro ⟨txin, htxin, ptx, hnext, rfl⟩
    obtain ⟨it, e, he, rfl, txin', htxin', heq⟩ := (h.next _ _).mp hnext
    obtain ⟨e₀, he₀, rfl⟩ := map_eq_some_iff.mp he
    have hid := h.linked.ids it _ he
    exact ⟨e₀, hid ▸ he₀, txin', htxin', txin, htxin, heq⟩
  · rintro ⟨e, he, txin', htxin', txin, htxin, heq⟩
    exact ⟨txin, htxin, e.tx, (h.next _ _).mpr ⟨it, _, lookup_coreAt he, rfl, txin', htxin', heq⟩,
      h.linked.ids it e.core (lookup_coreAt he)⟩

end Spent

end CTxMemPool

section Replacement

open CTxMemPool

variable {ctx : AcceptContext sha256} {pool mid : CTxMemPool sha256} {tx : CTransaction sha256}
  {plan : AcceptPlan sha256}

/-- What accepting `tx` has done: the conflicts are gone and paid for. -/
structure PaidReplacement (ctx : AcceptContext sha256) (pool : CTxMemPool sha256) (tx : CTransaction sha256)
    (entry : CTxMemPoolEntry sha256) (mid : CTxMemPool sha256) : Prop where
  entryTx : entry.tx = tx
  kept : ∀ it, it ∈ mid.mapTx ↔ it ∈ pool.mapTx ∧ ¬ pool.Evicted tx it
  evicted : ∀ it, pool.Evicted tx it → it ∈ pool.mapTx ∧ ¬ pool.IsAncestorOf tx it
  signals : ∀ it e, pool.mapTx.lookup it = some e → pool.ConflictsWith tx it → signalsReplacement e.tx = true
  pays : (∃ it, pool.ConflictsWith tx it) →
    ∑ it ∈ pool.mapTx.keys \ mid.mapTx.keys, pool.valueAt (·.getModifiedFee) it +
      ctx.incrementalRelayFee.getFee entry.getTxSize ≤ nModifiedFees pool entry

lemma PlanFits.mem_allConflicting_iff (hfits : PlanFits ctx pool tx plan) (hacc : Accounting pool) {it : Uint256} :
    it ∈ plan.allConflicting ↔ pool.Evicted tx it := by
  rw [hfits.mem_allConflicting hacc.consistent]
  exact exists_congr fun x => and_congr hacc.consistent.mem_conflictsOf_iff hacc.reaches_iff

lemma PlanFits.mem_setAncestors_of_isAncestorOf (hfits : PlanFits ctx pool tx plan) (hacc : Accounting pool)
    {it : Uint256} (h : pool.IsAncestorOf tx it) : it ∈ plan.setAncestors := by
  obtain ⟨txin, htxin, hmem, hreach⟩ := h
  rw [hfits.isAncestorSet hacc.consistent]
  exact ⟨txin.prevout.hash, mem_parentsOf.mpr ⟨⟨txin, htxin, rfl⟩, hmem⟩,
    hacc.reaches_iff.mpr (Relation.reflTransGen_swap.mpr hreach)⟩

lemma PlanFits.paidReplacement (hfits : PlanFits ctx pool tx plan) (hacc : Accounting pool)
    (hremoved : Removed pool mid plan.allConflicting false) : PaidReplacement ctx pool tx plan.entry mid := by
  have hcons := hacc.consistent
  have hsub : plan.allConflicting ⊆ pool.mapTx.keys := by
    intro it hit
    obtain ⟨x, hx, hreach⟩ := (hfits.mem_allConflicting hcons).mp hit
    exact hcons.linked.dag.mem_of_reaches (conflictsOf_sub_keys hcons hx) hreach
  have hdropped : pool.mapTx.keys \ mid.mapTx.keys = plan.allConflicting := by
    rw [hremoved.keys]
    exact Finset.sdiff_sdiff_eq_self hsub
  refine ⟨hfits.entryTx, ?_, ?_, ?_, ?_⟩
  · intro it
    rw [hremoved.mem_iff, hfits.mem_allConflicting_iff hacc]
  · intro it hit
    rw [← hfits.mem_allConflicting_iff hacc] at hit
    refine ⟨Finmap.mem_keys.mp (hsub hit), ?_⟩
    intro hancestor
    exact Finset.disjoint_left.mp (hfits.ancestors_disjoint hcons)
      (hfits.mem_setAncestors_of_isAncestorOf hacc hancestor) hit
  · rintro it e he ⟨e', he', txin', htxin', txin, htxin, heq⟩
    rw [he, Option.some.injEq] at he'
    subst he'
    -- The transaction that was seen to signal has the id of this entry, and so is the entry's own.
    have hnext := (hcons.next txin.prevout e.tx).mpr ⟨it, e.core, lookup_coreAt he, rfl, txin', htxin', heq⟩
    obtain ⟨txin₁, -, ptx, hnext₁, hhash, hsignals⟩ := hfits.signals txin htxin e.tx hnext
    obtain ⟨it₁, e₁, he₁, rfl, -⟩ := (hcons.next _ _).mp hnext₁
    have hsame : it₁ = it := by
      rw [← hcons.linked.ids it₁ e₁ he₁, hhash]
      exact hcons.linked.ids it e.core (lookup_coreAt he)
    rw [hsame, lookup_coreAt he, Option.some.injEq] at he₁
    rw [← he₁] at hsignals
    exact hsignals
  · rintro ⟨it, hit⟩
    rw [hdropped]
    apply hfits.pays
    exact Finset.ne_empty_of_mem (hcons.mem_conflictsOf_iff.mpr hit)

lemma PlanFits.noDoubleSpend_addUnchecked (hfits : PlanFits ctx pool tx plan) (hcons : Consistent pool)
    (hremoved : Removed pool mid plan.allConflicting false) (hmid : Consistent mid) {added : CTxMemPool sha256}
    (hadded : mid.addUnchecked plan.entry plan.setAncestors = some added) : NoDoubleSpend added := by
  have hnew : plan.entry.tx.hash ∉ mid.mapTx := by
    rw [hfits.entryTx]
    exact fun hmem => hfits.new (hremoved.mem_iff.mp hmem).1
  have hfree := hfits.free hcons hremoved
  rw [← hfits.entryTx] at hfree
  exact (hmid.noDoubleSpend_insertEntry hnew hfree).kept (keptFrom_addUnchecked hadded)

lemma acceptCommit_cases {result : Except AcceptError Unit × CTxMemPool sha256}
    (h : acceptCommit ctx pool plan = some result) :
    ∃ mid added, pool.removeStaged plan.allConflicting false = some mid ∧
      mid.addUnchecked plan.entry plan.setAncestors = some added ∧
      (result = (.ok (), added) ∨ ∃ limited, limitMempoolSize ctx added = some limited ∧
        (result = (.ok (), limited) ∨ result = (.error .mempoolFull, limited))) := by
  unfold acceptCommit at h
  obtain ⟨mid, hmid, h⟩ := bind_eq_some_iff.mp h
  obtain ⟨added, hadded, h⟩ := bind_eq_some_iff.mp h
  refine ⟨mid, added, hmid, hadded, ?_⟩
  split_ifs at h
  · exact Or.inl (Option.some.inj h).symm
  · obtain ⟨limited, hlimited, h⟩ := bind_eq_some_iff.mp h
    refine Or.inr ⟨limited, hlimited, ?_⟩
    split_ifs at h
    · exact Or.inl (Option.some.inj h).symm
    · exact Or.inr (Option.some.inj h).symm

/-- A call that fails before the pool is full changes nothing. A call that adds the transaction has removed
the entries that spend one of its inputs with their descendants, all of which were replaceable and are paid
for, and leaves no output spent twice. -/
theorem acceptToMemoryPoolWorker_replaces (ctx : AcceptContext sha256) (pool : CTxMemPool sha256)
    (tx : CTransaction sha256) (hacc : Accounting pool) :
    (∀ e pool', acceptToMemoryPoolWorker ctx pool tx = some (.error e, pool') → e ≠ .mempoolFull → pool' = pool) ∧
      ∀ plan, acceptChecks ctx pool tx = .ok plan →
        ∃ mid, pool.removeStaged plan.allConflicting false = some mid ∧ PaidReplacement ctx pool tx plan.entry mid ∧
          (∀ added, mid.addUnchecked plan.entry plan.setAncestors = some added → NoDoubleSpend added) ∧
          ∀ result, acceptToMemoryPoolWorker ctx pool tx = some result → NoDoubleSpend result.2 := by
  refine ⟨?_, ?_⟩
  · intro e pool' h hne
    unfold acceptToMemoryPoolWorker at h
    cases hchecks : acceptChecks ctx pool tx with
    | error e' =>
      rw [hchecks] at h
      obtain ⟨-, rfl⟩ := Prod.mk.inj (Option.some.inj h)
      rfl
    | ok plan =>
      rw [hchecks] at h
      obtain ⟨mid, added, -, -, hend | ⟨limited, -, hend | hend⟩⟩ := acceptCommit_cases h
      · cases hend
      · cases hend
      · obtain ⟨herror, -⟩ := Prod.mk.inj hend
        exact absurd (Except.error.inj herror) hne
  · intro plan hchecks
    have hfits := planFits_of_acceptChecks hchecks
    obtain ⟨mid, hmid, hmidCons, hremoved, -⟩ := hfits.removeStaged hacc.consistent
    have hadd : ∀ added, mid.addUnchecked plan.entry plan.setAncestors = some added → NoDoubleSpend added :=
      fun added => hfits.noDoubleSpend_addUnchecked hacc.consistent hremoved hmidCons
    refine ⟨mid, hmid, hfits.paidReplacement hacc hremoved, hadd, ?_⟩
    intro result hresult
    unfold acceptToMemoryPoolWorker at hresult
    rw [hchecks] at hresult
    obtain ⟨mid', added, hmid', hadded, hend⟩ := acceptCommit_cases hresult
    rw [hmid, Option.some.injEq] at hmid'
    rw [← hmid'] at hadded
    obtain rfl | ⟨limited, hlimited, rfl | rfl⟩ := hend
    · exact hadd added hadded
    · exact (hadd added hadded).kept (keptFrom_limitMempoolSize hlimited)
    · exact (hadd added hadded).kept (keptFrom_limitMempoolSize hlimited)

def optInTx : CTransaction cSHA256 where
  toCMutableTransaction := plainTransaction [⟨fundingOutpoint, [], 0, []⟩] [⟨5000000000, [0x51]⟩]
  hash := BaseBlob.ofNat 32 0xf5ee72c710156be89c24bb250c7032e81e13e74471e7ce4bea5920ddd7b940f7
  computeHash_eq := by decide +kernel

def replacementTx : CTransaction cSHA256 where
  toCMutableTransaction := plainTransaction [⟨fundingOutpoint, [], 0, []⟩] [⟨4999900000, [0x51]⟩]
  hash := BaseBlob.ofNat 32 0x7592c320da07cb6903ce037788d0a3f2e3bdbff8d800a8307cf168fc9413ca37
  computeHash_eq := by decide +kernel

theorem acceptToMemoryPoolWorker_replaces_optInTx :
    ∃ pool plan mid, CTxMemPool.empty.addUnchecked (CTxMemPoolEntry.make optInTx 10000 0 0 700) ∅ = some pool ∧
      acceptChecks (openContext fundingOutpoint ⟨⟨5000010000, [0x51]⟩, false, 1⟩) pool replacementTx = .ok plan ∧
      pool.removeStaged plan.allConflicting false = some mid ∧ optInTx.hash ∈ plan.allConflicting ∧
      PaidReplacement (openContext fundingOutpoint ⟨⟨5000010000, [0x51]⟩, false, 1⟩) pool replacementTx plan.entry
        mid := by
  have hempty : IsAncestorSet (CTxMemPool.empty : CTxMemPool cSHA256) optInTx ∅ := by
    intro y
    refine ⟨fun hy => absurd hy (Finset.notMem_empty y), ?_⟩
    rintro ⟨p, hp, -⟩
    exact absurd (mem_parentsOf.mp hp).2 Finmap.notMem_empty
  obtain ⟨pool, hpool, hacc⟩ := accounting_empty.addUnchecked (CTxMemPoolEntry.fresh_make optInTx 10000 0 0 700)
    Finmap.notMem_empty (by decide +kernel) (fun _ _ => rfl) (fun it e he => nomatch he) hempty
  have hrun : (CTxMemPool.empty.addUnchecked (CTxMemPoolEntry.make optInTx 10000 0 0 700) ∅).map (fun pool =>
      (acceptChecks (openContext fundingOutpoint ⟨⟨5000010000, [0x51]⟩, false, 1⟩) pool replacementTx).toOption.map
        (fun plan => decide (optInTx.hash ∈ plan.allConflicting))) = some (some true) := by
    decide +kernel
  rw [hpool, map_some, Option.some.injEq, map_eq_some_iff] at hrun
  obtain ⟨plan, hplan, hmem⟩ := hrun
  have hchecks := eq_ok_of_toOption hplan
  obtain ⟨mid, hmid, hpaid, -⟩ := (acceptToMemoryPoolWorker_replaces _ pool replacementTx hacc).2 plan hchecks
  exact ⟨pool, plan, mid, hpool, hchecks, hmid, of_decide_eq_true hmem, hpaid⟩

def freeContext : AcceptContext cSHA256 :=
  { openContext fundingOutpoint ⟨⟨5000000000, [0x51]⟩, false, 1⟩ with fLimitFree := false }

/-- Without a conflict, a transaction without fee is added. -/
theorem not_paysIncremental_firstTwin :
    Accounting (CTxMemPool.empty : CTxMemPool cSHA256) ∧ NoDoubleSpend (CTxMemPool.empty : CTxMemPool cSHA256) ∧
      ∃ plan pool', acceptChecks freeContext CTxMemPool.empty firstTwin = .ok plan ∧
        acceptToMemoryPoolWorker freeContext CTxMemPool.empty firstTwin = some (.ok (), pool') ∧
        nModifiedFees CTxMemPool.empty plan.entry <
          ∑ it ∈ plan.allConflicting, (CTxMemPool.empty : CTxMemPool cSHA256).valueAt (·.getModifiedFee) it +
            freeContext.incrementalRelayFee.getFee plan.entry.getTxSize := by
  refine ⟨accounting_empty, accounting_empty.consistent.noDoubleSpend, ?_⟩
  have hplan : (acceptChecks freeContext CTxMemPool.empty firstTwin).toOption.map (fun plan =>
      decide (nModifiedFees CTxMemPool.empty plan.entry <
        ∑ it ∈ plan.allConflicting, (CTxMemPool.empty : CTxMemPool cSHA256).valueAt (·.getModifiedFee) it +
          freeContext.incrementalRelayFee.getFee plan.entry.getTxSize)) = some true := by
    decide +kernel
  have hrun : (acceptToMemoryPoolWorker freeContext CTxMemPool.empty firstTwin).map (·.1.toBool) = some true := by
    decide +kernel
  obtain ⟨plan, hplan, hless⟩ := map_eq_some_iff.mp hplan
  obtain ⟨⟨answer, pool'⟩, haccept, hok⟩ := map_eq_some_iff.mp hrun
  refine ⟨plan, pool', eq_ok_of_toOption hplan, ?_, of_decide_eq_true hless⟩
  cases answer with
  | error e => cases hok
  | ok _ => exact haccept

end Replacement

end MutableBitcoin
