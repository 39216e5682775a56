import MutableBitcoin.AcceptToMemoryPool
import MutableBitcoin.DuplicateIds

/-!
# Colliding ids in the memory pool

By a chameleon collision a transaction can carry the id of the confirmed transaction whose output it
spends, and so become its own parent.
-/

namespace MutableBitcoin
open Lib Option

variable {sha256 : Bytes → Uint256}

/-- The calls that change the pool. -/
inductive PoolCall (sha256 : Bytes → Uint256) where
  | acceptToMemoryPoolWorker (ctx : AcceptContext sha256) (tx : CTransaction sha256)
  | removeRecursive (origTx : CTransaction sha256)
  | removeForBlock (vtx : List (CTransaction sha256))
  | expire (time : ℤ)
  | trimToSize (lowest : CTxMemPool sha256 → Uint256) (dynamicMemoryUsage : CTxMemPool sha256 → ℕ) (sizelimit : ℕ)

namespace PoolCall

/-- The pool after the call, `none` if an assertion fails. -/
def run (pool : CTxMemPool sha256) : PoolCall sha256 → Option (CTxMemPool sha256)
  | acceptToMemoryPoolWorker ctx tx => (MutableBitcoin.acceptToMemoryPoolWorker ctx pool tx).map (·.2)
  | removeRecursive origTx => pool.removeRecursive origTx
  | removeForBlock vtx => pool.removeForBlock vtx
  | expire time => pool.expire time
  | trimToSize lowest dynamicMemoryUsage sizelimit => pool.trimToSize lowest dynamicMemoryUsage sizelimit

/-- The index by `descendant_score` begins with an entry. -/
def Ordered : PoolCall sha256 → Prop
  | acceptToMemoryPoolWorker ctx _ => CTxMemPool.PicksEntry ctx.lowest
  | trimToSize lowest _ _ => CTxMemPool.PicksEntry lowest
  | _ => True

def NoSelfSpend : PoolCall sha256 → Prop
  | acceptToMemoryPoolWorker _ tx => ∀ txin ∈ tx.vin, txin.prevout.hash ≠ tx.hash
  | _ => True

end PoolCall

/-- The pools that calls lead to. -/
inductive PoolReachable : CTxMemPool sha256 → Prop
  | empty : PoolReachable CTxMemPool.empty
  | call {pool pool' : CTxMemPool sha256} (call : PoolCall sha256) (h : PoolReachable pool)
      (hordered : call.Ordered) (hself : call.NoSelfSpend) (hrun : call.run pool = some pool') : PoolReachable pool'

namespace CTxMemPool

section Safe

variable {pool : CTxMemPool sha256}

lemma Consistent.limitMempoolSize {ctx : AcceptContext sha256} (hordered : PicksEntry ctx.lowest)
    (h : Consistent pool) : ∃ pool', limitMempoolSize ctx pool = some pool' ∧ Consistent pool' := by
  obtain ⟨mid, hmid, hcons, -⟩ := h.expire ctx.expiryTime
  obtain ⟨pool', hpool', hcons', -⟩ := hcons.trimToSize hordered ctx.dynamicMemoryUsage ctx.sizelimit
  refine ⟨pool', ?_, hcons'⟩
  unfold MutableBitcoin.limitMempoolSize
  rw [hmid]
  exact hpool'

lemma Consistent.acceptCommit {ctx : AcceptContext sha256} {tx : CTransaction sha256} {plan : AcceptPlan sha256}
    (hordered : PicksEntry ctx.lowest) (hself : ∀ txin ∈ tx.vin, txin.prevout.hash ≠ tx.hash)
    (hfits : PlanFits ctx pool tx plan) (h : Consistent pool) :
    ∃ result, acceptCommit ctx pool plan = some result ∧ Consistent result.2 := by
  obtain ⟨mid, hmid, hcons, hremoved, -⟩ := hfits.removeStaged h
  have htx := hfits.entryTx
  have hnew : tx.hash ∉ mid.mapTx := fun hmem => hfits.new (hremoved.mem_iff.mp hmem).1
  have hfree := hfits.free h hremoved
  have hset := hfits.isAncestorSet_removed h hremoved
  rw [← htx] at hself hnew hfree hset
  obtain ⟨added, hadded, hcons', -⟩ := hcons.addUnchecked hfits.fresh hnew hself hfree hset
  unfold MutableBitcoin.acceptCommit
  rw [hmid]
  dsimp only [bind, Option.bind]
  rw [hadded]
  dsimp only
  split_ifs with hoverride
  · exact ⟨_, rfl, hcons'⟩
  · obtain ⟨limited, hlimited, hcons''⟩ := hcons'.limitMempoolSize hordered
    rw [hlimited]
    dsimp only
    split_ifs
    · exact ⟨_, rfl, hcons''⟩
    · exact ⟨_, rfl, hcons''⟩

lemma Consistent.call {call : PoolCall sha256} (hordered : call.Ordered) (hself : call.NoSelfSpend)
    (h : Consistent pool) : ∃ pool', call.run pool = some pool' ∧ Consistent pool' := by
  cases call with
  | acceptToMemoryPoolWorker ctx tx =>
    unfold PoolCall.run MutableBitcoin.acceptToMemoryPoolWorker
    dsimp only
    cases hchecks : acceptChecks ctx pool tx with
    | error e => exact ⟨pool, rfl, h⟩
    | ok plan =>
      obtain ⟨result, hresult, hcons⟩ := h.acceptCommit hordered hself (planFits_of_acceptChecks hchecks)
      refine ⟨result.2, ?_, hcons⟩
      dsimp only
      rw [hresult]
      rfl
  | removeRecursive origTx =>
    obtain ⟨pool', hpool', hcons, -⟩ := h.removeRecursive origTx
    exact ⟨pool', hpool', hcons⟩
  | removeForBlock vtx => exact h.removeForBlock vtx
  | expire time =>
    obtain ⟨pool', hpool', hcons, -⟩ := h.expire time
    exact ⟨pool', hpool', hcons⟩
  | trimToSize lowest dynamicMemoryUsage sizelimit =>
    obtain ⟨pool', hpool', hcons, -⟩ := h.trimToSize hordered dynamicMemoryUsage sizelimit
    exact ⟨pool', hpool', hcons⟩

lemma consistent_of_poolReachable (h : PoolReachable pool) : Consistent pool := by
  induction h with
  | empty => exact consistent_empty
  | call call _ hordered hself hrun ih =>
    obtain ⟨pool', hpool', hcons⟩ := ih.call hordered hself
    rw [hrun, Option.some.injEq] at hpool'
    exact hpool' ▸ hcons

/-- No entry is its own ancestor. -/
def AcyclicParents (pool : CTxMemPool sha256) : Prop :=
  ∀ it, ¬ Relation.TransGen (fun x y => y ∈ pool.getMemPoolParents x) it it

lemma Linked.acyclicParents (h : Linked pool) : AcyclicParents pool := by
  intro it hcycle
  obtain ⟨y, hy, hreach⟩ := Relation.TransGen.head'_iff.mp hcycle
  exact h.dag.acyclic (h.dag.symm.mp hy) (h.dag.reaches_parents.mp hreach)

/-- In every run in which no offered transaction spends an output of its own id, the parent relation is
acyclic and no further such call fails an assertion. -/
theorem acyclicParents_of_poolReachable (pool : CTxMemPool sha256) (h : PoolReachable pool) :
    AcyclicParents pool ∧ ∀ call : PoolCall sha256, call.Ordered → call.NoSelfSpend →
      ∃ pool', call.run pool = some pool' := by
  have hcons := consistent_of_poolReachable h
  refine ⟨hcons.linked.acyclicParents, ?_⟩
  intro call hordered hself
  obtain ⟨pool', hpool', -⟩ := hcons.call hordered hself
  exact ⟨pool', hpool'⟩

end Safe

end CTxMemPool

section Collision

def firstEntry (pool : CTxMemPool cSHA256) : Uint256 := (SetEntries.first pool.mapTx.keys).getD (BaseBlob.null 32)

lemma picksEntry_firstEntry : CTxMemPool.PicksEntry firstEntry := by
  intro pool hnonempty
  unfold firstEntry
  cases hfirst : SetEntries.first pool.mapTx.keys with
  | none => exact absurd (SetEntries.takes_first.empty hfirst) hnonempty.ne_empty
  | some it => exact Finmap.mem_keys.mp (SetEntries.takes_first.mem hfirst)

def openContext (o : COutPoint) (coin : Coin) : AcceptContext cSHA256 where
  fLimitFree := true
  nAcceptTime := 0
  fOverrideMempoolLimit := false
  nAbsurdFee := 0
  prematureWitness := false
  fRequireStandard := false
  fEnableReplacement := true
  witnessEnabled := true
  isStandardTx := fun _ _ => none
  checkFinalTx := fun _ => true
  checkSequenceLocks := fun _ _ => true
  areInputsStandard := fun _ _ => true
  isWitnessStandard := fun _ _ => true
  coinsTip := fun o' => if o' = o then some coin else none
  haveCoinInCache := fun _ => false
  nUsageSize := fun _ => 700
  minFee := ⟨0⟩
  minRelayTxFee := ⟨1000⟩
  incrementalRelayFee := ⟨1000⟩
  limits := ⟨some 25, some 101000, some 25, some 101000⟩
  scriptVerifyFlags := STANDARD_SCRIPT_VERIFY_FLAGS
  currentBlockScriptVerifyFlags := MANDATORY_SCRIPT_VERIFY_FLAGS
  checkInputs := fun _ _ _ => none
  expiryTime := -1
  sizelimit := 300000000
  lowest := firstEntry
  dynamicMemoryUsage := fun pool => pool.cachedInnerUsage.toNat

/-- Spends the output of `firstTwin`. -/
def childTx : CTransaction cSHA256 where
  toCMutableTransaction := plainTransaction [⟨⟨firstTwin.hash, 0⟩, [], SEQUENCE_FINAL, []⟩] [⟨4999990000, [0x51]⟩]
  hash := BaseBlob.ofNat 32 0x659fe6d3b97f9adeff2c81f5d0ebedab1cba1629d87f7f1ec8482dfe5a16fd4f
  computeHash_eq := by decide +kernel

/-- A transaction and its child enter the pool, and a block takes the first. -/
theorem acyclicParents_of_poolReachable_firstTwin :
    ∃ pool pool' pool'', (PoolCall.acceptToMemoryPoolWorker (openContext fundingOutpoint ⟨⟨5000010000, [0x51]⟩, false, 1⟩)
        firstTwin).run CTxMemPool.empty = some pool ∧
      (PoolCall.acceptToMemoryPoolWorker (openContext fundingOutpoint ⟨⟨5000010000, [0x51]⟩, false, 1⟩)
        childTx).run pool = some pool' ∧
      pool'.getMemPoolParents childTx.hash = {firstTwin.hash} ∧ pool'.AcyclicParents ∧
      (PoolCall.removeForBlock [firstTwin]).run pool' = some pool'' := by
  let accept (tx : CTransaction cSHA256) : PoolCall cSHA256 :=
    .acceptToMemoryPoolWorker (openContext fundingOutpoint ⟨⟨5000010000, [0x51]⟩, false, 1⟩) tx
  have hrun : (((accept firstTwin).run CTxMemPool.empty).bind (accept childTx).run).map
      (fun pool => pool.getMemPoolParents childTx.hash) = some {firstTwin.hash} := by
    decide +kernel
  obtain ⟨pool', hboth, hparents⟩ := map_eq_some_iff.mp hrun
  obtain ⟨pool, hfirst, hchild⟩ := bind_eq_some_iff.mp hboth
  have hself : ∀ txin ∈ firstTwin.vin, txin.prevout.hash ≠ firstTwin.hash := by decide +kernel
  have hself' : ∀ txin ∈ childTx.vin, txin.prevout.hash ≠ childTx.hash := by decide +kernel
  have hreachable : PoolReachable pool' :=
    .call (accept childTx) (.call (accept firstTwin) .empty picksEntry_firstEntry hself hfirst) picksEntry_firstEntry
      hself' hchild
  obtain ⟨hacyclic, hnofail⟩ := CTxMemPool.acyclicParents_of_poolReachable pool' hreachable
  obtain ⟨pool'', hremove⟩ := hnofail (.removeForBlock [firstTwin]) trivial trivial
  exact ⟨pool, pool', pool'', hfirst, hchild, hparents, hacyclic, hremove⟩

/-- Spends the output of `firstTwin`, with randomness that gives it the id of `firstTwin`. -/
def selfSpendTx : CTransaction cSHA256 where
  rValue := secondTwin.rValue
  sValue := BaseBlob.ofNat 128 0xa695b3cea5edfee68f9b373cb6cf3f8b2535ad1a1c1d14eed787ee1808fdac19c1942eeb011a3996f8ca61fddbb69704b57a3256adee6d74ffb69f3b0e6bfba323a6e4c8628903e8910912c0313ad781ebe7f4c9d0c8dd1f0da256cf2dd12295d7899b1dd6dd2645f65facc6a10893f8b2799f5aa5035a8f19afb15c639473fa
  rscriptSig := BaseBlob.null 128
  sscriptSig := BaseBlob.null 128
  nVersion := 1
  vin := [⟨⟨firstTwin.hash, 0⟩, [], SEQUENCE_FINAL, []⟩]
  vout := [⟨4999990000, [0x51]⟩]
  nLockTime := 0
  hash := firstTwin.hash
  computeHash_eq := by decide +kernel

/-- The transaction enters the empty pool as its own parent, and an assertion fails when it is removed. -/
theorem not_acyclicParents_selfSpendTx :
    ∃ pool, acceptToMemoryPoolWorker (openContext ⟨firstTwin.hash, 0⟩ ⟨⟨5000000000, [0x51]⟩, false, 1⟩)
      CTxMemPool.empty selfSpendTx = some (.ok (), pool) ∧ ¬ pool.AcyclicParents ∧
      (PoolCall.removeForBlock [selfSpendTx]).run pool = none := by
  have hrun : (acceptToMemoryPoolWorker (openContext ⟨firstTwin.hash, 0⟩ ⟨⟨5000000000, [0x51]⟩, false, 1⟩)
      CTxMemPool.empty selfSpendTx).map (fun r => (r.1.toBool,
        decide (selfSpendTx.hash ∈ r.2.getMemPoolParents selfSpendTx.hash),
        ((PoolCall.removeForBlock [selfSpendTx]).run r.2).isNone)) = some (true, true, true) := by
    decide +kernel
  obtain ⟨⟨answer, pool⟩, haccept, heq⟩ := map_eq_some_iff.mp hrun
  simp only [Prod.mk.injEq, decide_eq_true_eq, isNone_iff_eq_none] at heq
  obtain ⟨hok, hparent, hremove⟩ := heq
  have hanswer : answer = .ok () := by
    cases answer with
    | error e => cases hok
    | ok _ => rfl
  rw [hanswer] at haccept
  refine ⟨pool, haccept, ?_, hremove⟩
  intro hacyclic
  exact hacyclic selfSpendTx.hash (Relation.TransGen.single hparent)

end Collision

end MutableBitcoin
