import MutableBitcoin.MempoolIndex
import MutableBitcoin.MempoolReorg
import MutableBitcoin.MempoolCollision

/-!
# Accounting over whole runs

A run of the pool alternates between ordinary calls and reorganizations, each ended by one call of
`UpdateTransactionsFromBlock`.
-/

namespace MutableBitcoin
open Lib Finset Option

variable {sha256 : Bytes → Uint256}

/-- A known transaction spends from the other. -/
def SpendsKnown (known : CTransaction sha256 → Prop) (child parent : Uint256) : Prop :=
  ∃ tx, known tx ∧ tx.hash = child ∧ ∃ txin ∈ tx.vin, txin.prevout.hash = parent

/-- The calls of a run with reorganizations. -/
inductive BookCall (sha256 : Bytes → Uint256) where
  | addUnchecked (entry : CTxMemPoolEntry sha256) (setAncestors : SetEntries)
  | addAgain (entry : CTxMemPoolEntry sha256) (setAncestors : SetEntries)
  | updateTransactionsFromBlock (vHashesToUpdate : List Uint256)
  | removeRecursive (origTx : CTransaction sha256)
  | removeForBlock (vtx : List (CTransaction sha256))
  | removeStaged (stage : SetEntries) (updateDescendants : Bool)
  | prioritiseTransaction (hash : Uint256) (nFeeDelta : ℤ)
  | expire (time : ℤ)
  | trimToSize (lowest : CTxMemPool sha256 → Uint256) (dynamicMemoryUsage : CTxMemPool sha256 → ℕ) (sizelimit : ℕ)

open CTxMemPool

/-- A new entry of a transaction that is not in the pool and does not conflict with it, with the set that
`CalculateMemPoolAncestors` gives. -/
structure Addable (known : CTransaction sha256 → Prop) (pool : CTxMemPool sha256) (entry : CTxMemPoolEntry sha256)
    (setAncestors : SetEntries) : Prop where
  known : known entry.tx
  fresh : entry.Fresh
  new : entry.tx.hash ∉ pool.mapTx
  free : ∀ txin ∈ entry.tx.vin, pool.mapNextTx.lookup txin.prevout = none
  ancestors : ∃ limits, calculateMemPoolAncestors pool limits entry true = .ok setAncestors

/-- An entry spends from the other. -/
def SpendsFrom (pool : CTxMemPool sha256) (it parent : Uint256) : Prop :=
  ∃ e, pool.mapTx.lookup it = some e ∧ ∃ txin ∈ e.tx.vin, txin.prevout.hash = parent

namespace BookCall

/-- The pool after the call, `none` if an assertion fails. -/
def run (pool : CTxMemPool sha256) : BookCall sha256 → Option (CTxMemPool sha256)
  | addUnchecked entry setAncestors => pool.addUnchecked entry setAncestors
  | addAgain entry setAncestors => pool.addUnchecked entry setAncestors
  | updateTransactionsFromBlock vHashesToUpdate => pool.updateTransactionsFromBlock vHashesToUpdate
  | removeRecursive origTx => pool.removeRecursive origTx
  | removeForBlock vtx => pool.removeForBlock vtx
  | removeStaged stage updateDescendants => pool.removeStaged stage updateDescendants
  | prioritiseTransaction hash nFeeDelta => pool.prioritiseTransaction hash nFeeDelta
  | expire time => pool.expire time
  | trimToSize lowest dynamicMemoryUsage sizelimit => pool.trimToSize lowest dynamicMemoryUsage sizelimit

/-- The transactions that were added again and wait for `UpdateTransactionsFromBlock`. -/
def waiting (R : SetEntries) : BookCall sha256 → SetEntries
  | addAgain entry _ => insert entry.tx.hash R
  | _ => ∅

/-- What the callers promise of a call. -/
def InStep (known : CTransaction sha256 → Prop) (pool : CTxMemPool sha256) (R : SetEntries) : BookCall sha256 → Prop
  | addUnchecked entry setAncestors => R = ∅ ∧ Addable known pool entry setAncestors ∧
      ∀ it, ¬ SpendsFrom pool it entry.tx.hash
  | addAgain entry setAncestors => Addable known pool entry setAncestors ∧ ∀ it ∈ R, ¬ SpendsFrom pool it entry.tx.hash
  | updateTransactionsFromBlock vHashesToUpdate => vHashesToUpdate.Nodup ∧ vHashesToUpdate.toFinset = R ∧
      vHashesToUpdate.Pairwise (fun h h' => ¬ pool.Spends h h') ∧ Separate pool R
  | removeRecursive _ => R = ∅
  | removeForBlock vtx => R = ∅ ∧ ∀ front tx behind, vtx = front ++ tx :: behind →
      ∀ parent, pool.Spends tx.hash parent → ∃ tx' ∈ front, tx'.hash = parent
  | removeStaged stage _ => R = ∅ ∧ (∀ it ∈ stage, it ∈ pool.mapTx) ∧
      ∀ it ∈ stage, ∀ child, pool.Spends child it → child ∈ stage
  | prioritiseTransaction _ _ => R = ∅
  | expire _ => R = ∅
  | trimToSize lowest _ _ => R = ∅ ∧ PicksEntry lowest

end BookCall

/-- The pools of such runs, with the entries that were added again. -/
inductive BookReachable (known : CTransaction sha256 → Prop) : CTxMemPool sha256 → SetEntries → Prop
  | empty : BookReachable known CTxMemPool.empty ∅
  | call {pool pool' : CTxMemPool sha256} {R : SetEntries} (call : BookCall sha256) (h : BookReachable known pool R)
      (hin : call.InStep known pool R) (hrun : call.run pool = some pool') : BookReachable known pool' (call.waiting R)

section Run

variable {known : CTransaction sha256 → Prop} {pool pool' : CTxMemPool sha256} {R : SetEntries}

/-- The accounting is exact but for links to entries added again. -/
structure BookInvariant (known : CTransaction sha256 → Prop) (pool : CTxMemPool sha256) (R : SetEntries) : Prop where
  readded : Readded pool R
  txs : ∀ it e, pool.mapTx.lookup it = some e → known e.tx

lemma BookInvariant.spendsKnown (h : BookInvariant known pool R) {child parent : Uint256}
    (hspends : pool.Spends child parent) : SpendsKnown known child parent := by
  obtain ⟨-, e, he, htxin⟩ := hspends
  have hid := h.readded.linked.ids child e he
  obtain ⟨e₀, he₀, rfl⟩ := map_eq_some_iff.mp he
  exact ⟨e₀.tx, h.txs child e₀ he₀, hid, htxin⟩

lemma BookInvariant.acyclic (hacyclic : ∀ id, ¬ Relation.TransGen (SpendsKnown known) id id)
    (h : BookInvariant known pool R) (x : Uint256) : ¬ Relation.TransGen pool.Spends x x := by
  intro hcycle
  exact hacyclic x (Relation.TransGen.mono (fun _ _ hspends => h.spendsKnown hspends) _ _ hcycle)

lemma BookInvariant.txs_kept (h : BookInvariant known pool R) (hkept : KeptFrom pool pool') :
    ∀ it e, pool'.mapTx.lookup it = some e → known e.tx := by
  intro it e' he'
  obtain ⟨e, he, htx⟩ := hkept it e' he'
  exact htx ▸ h.txs it e he

lemma BookInvariant.ordinary (h : BookInvariant known pool R) {run : Option (CTxMemPool sha256)}
    (hkept : ∀ pool', run = some pool' → KeptFrom pool pool')
    (hrun : ∃ pool', run = some pool' ∧ Accounting pool') :
    ∃ pool', run = some pool' ∧ BookInvariant known pool' ∅ := by
  obtain ⟨pool', hpool', hacc⟩ := hrun
  exact ⟨pool', hpool', readded_empty_iff.mpr hacc, h.txs_kept (hkept pool' hpool')⟩

lemma noSelfSpend (hacyclic : ∀ id, ¬ Relation.TransGen (SpendsKnown known) id id) {tx : CTransaction sha256}
    (htx : known tx) : ∀ txin ∈ tx.vin, txin.prevout.hash ≠ tx.hash := by
  intro txin htxin heq
  exact hacyclic tx.hash (Relation.TransGen.single ⟨tx, htx, rfl, txin, htxin, heq⟩)

lemma not_spendsFrom_iff {it parent : Uint256} : ¬ SpendsFrom pool it parent ↔
    ∀ e, pool.coreAt it = some e → ∀ txin ∈ e.tx.vin, txin.prevout.hash ≠ parent := by
  constructor
  · intro h e he txin htxin heq
    obtain ⟨e₀, he₀, rfl⟩ := map_eq_some_iff.mp he
    exact h ⟨e₀, he₀, txin, htxin, heq⟩
  · rintro h ⟨e, he, txin, htxin, heq⟩
    exact h e.core (by rw [coreAt, he]; rfl) txin htxin heq

lemma Addable.isAncestorSet {entry : CTxMemPoolEntry sha256} {setAncestors : SetEntries} (hlinked : Linked pool)
    (h : Addable known pool entry setAncestors) : IsAncestorSet pool entry.tx setAncestors := by
  obtain ⟨limits, hcalculated⟩ := h.ancestors
  intro y
  rw [hlinked.mem_calculateMemPoolAncestors hcalculated]

lemma BookInvariant.txs_added {entry : CTxMemPoolEntry sha256} {setAncestors : SetEntries}
    (h : BookInvariant known pool R) (hadd : Addable known pool entry setAncestors)
    (hrun : pool.addUnchecked entry setAncestors = some pool') :
    ∀ it e, pool'.mapTx.lookup it = some e → known e.tx := by
  intro it e' he'
  obtain ⟨e, he, htx⟩ := keptFrom_addUnchecked hrun it e' he'
  have hmap : (pool.insertEntry entry).mapTx = pool.mapTx.insert entry.tx.hash entry := if_neg hadd.new
  rw [hmap, lookup_insert_apply] at he
  rw [← htx]
  split_ifs at he
  · rw [← Option.some.inj he]
    exact hadd.known
  · exact h.txs it e he

lemma BookInvariant.call (hacyclic : ∀ id, ¬ Relation.TransGen (SpendsKnown known) id id)
    (h : BookInvariant known pool R) {call : BookCall sha256} (hin : call.InStep known pool R) :
    ∃ pool', call.run pool = some pool' ∧ BookInvariant known pool' (call.waiting R) := by
  cases call with
  | addUnchecked entry setAncestors =>
    obtain ⟨rfl, hadd, hchildren⟩ := hin
    have hacc := readded_empty_iff.mp h.readded
    obtain ⟨pool', hpool', hacc'⟩ := hacc.addUnchecked hadd.fresh hadd.new (noSelfSpend hacyclic hadd.known) hadd.free
      (fun it => not_spendsFrom_iff.mp (hchildren it)) (hadd.isAncestorSet hacc.linked)
    exact ⟨pool', hpool', readded_empty_iff.mpr hacc', h.txs_added hadd hpool'⟩
  | addAgain entry setAncestors =>
    obtain ⟨hadd, hlater⟩ := hin
    obtain ⟨pool', hpool', hreadded⟩ := h.readded.addUnchecked hadd.fresh hadd.new (noSelfSpend hacyclic hadd.known)
      hadd.free (fun r hr => not_spendsFrom_iff.mp (hlater r hr)) (hadd.isAncestorSet h.readded.linked)
    exact ⟨pool', hpool', hreadded, h.txs_added hadd hpool'⟩
  | updateTransactionsFromBlock vHashesToUpdate =>
    obtain ⟨hnodup, hlist, hfirst, hseparate⟩ := hin
    exact h.ordinary (fun _ => keptFrom_updateTransactionsFromBlock)
      (h.readded.updateTransactionsFromBlock (h.acyclic hacyclic) hseparate hnodup hlist hfirst)
  | removeRecursive origTx =>
    obtain rfl : R = ∅ := hin
    have hacc := readded_empty_iff.mp h.readded
    obtain ⟨pool', hpool', -, hremoval⟩ := hacc.consistent.removeRecursive origTx
    exact h.ordinary (fun _ => keptFrom_removeRecursive) ⟨pool', hpool', hremoval.accounting hacc⟩
  | removeForBlock vtx =>
    obtain ⟨rfl, hfirst⟩ := hin
    have hacc := readded_empty_iff.mp h.readded
    refine h.ordinary (fun _ => keptFrom_removeForBlock) (hacc.removeForBlock ?_)
    intro front tx behind hvtx _ parent hparent
    exact hfirst front tx behind hvtx parent ((hacc.parents _ _).mp hparent)
  | removeStaged stage updateDescendants =>
    obtain ⟨rfl, hstage, hclosed⟩ := hin
    exact h.ordinary (fun _ => keptFrom_removeStaged)
      ((readded_empty_iff.mp h.readded).removeStaged hstage hclosed updateDescendants)
  | prioritiseTransaction hash nFeeDelta =>
    obtain rfl : R = ∅ := hin
    exact h.ordinary (fun _ => keptFrom_prioritiseTransaction)
      ((readded_empty_iff.mp h.readded).prioritiseTransaction hash nFeeDelta)
  | expire time =>
    obtain rfl : R = ∅ := hin
    have hacc := readded_empty_iff.mp h.readded
    obtain ⟨pool', hpool', -, hremoval⟩ := hacc.consistent.expire time
    exact h.ordinary (fun _ => keptFrom_removeStaged) ⟨pool', hpool', hremoval.accounting hacc⟩
  | trimToSize lowest dynamicMemoryUsage sizelimit =>
    obtain ⟨rfl, hlowest⟩ := hin
    have hacc := readded_empty_iff.mp h.readded
    obtain ⟨pool', hpool', -, hremovals⟩ := hacc.consistent.trimToSize hlowest dynamicMemoryUsage sizelimit
    exact h.ordinary (fun _ => keptFrom_trimToSizeLoop)
      ⟨pool', hpool', accounting_of_closedRemovals hacc hremovals⟩

lemma bookInvariant_of_bookReachable (hacyclic : ∀ id, ¬ Relation.TransGen (SpendsKnown known) id id)
    (h : BookReachable known pool R) : BookInvariant known pool R := by
  induction h with
  | empty => exact ⟨readded_empty_iff.mpr accounting_empty, fun it e he => nomatch he⟩
  | call call _ hin hrun ih =>
    obtain ⟨pool', hpool', hinv⟩ := ih.call hacyclic hin
    rw [hrun, Option.some.injEq] at hpool'
    exact hpool' ▸ hinv

/-- In every run in which each call meets its condition, the accounting is exact whenever nothing is waiting,
and no further such call fails an assertion. -/
theorem accounting_of_bookReachable (known : CTransaction sha256 → Prop)
    (hacyclic : ∀ id, ¬ Relation.TransGen (SpendsKnown known) id id) (pool : CTxMemPool sha256) (R : SetEntries)
    (h : BookReachable known pool R) :
    (R = ∅ → Accounting pool ∧ ∀ it ∈ pool.mapTx, ∀ y,
      (y ∈ pool.descendants it ↔ Relation.ReflTransGen (fun parent child => pool.Spends child parent) it y) ∧
      (y ∈ pool.ancestors it ↔ Relation.ReflTransGen pool.Spends it y)) ∧
    ∀ call : BookCall sha256, call.InStep known pool R → ∃ pool', call.run pool = some pool' := by
  have hinv := bookInvariant_of_bookReachable hacyclic h
  refine ⟨?_, ?_⟩
  · rintro rfl
    have hacc := readded_empty_iff.mp hinv.readded
    refine ⟨hacc, fun it hit y => ⟨?_, ?_⟩⟩
    · rw [hacc.linked.mem_descendants hit, hacc.reaches_iff]
    · rw [hacc.linked.mem_ancestors hit, hacc.reaches_iff]
      exact Relation.reflTransGen_swap
  · intro call hin
    obtain ⟨pool', hpool', -⟩ := hinv.call hacyclic hin
    exact ⟨pool', hpool'⟩

end Run

section Chain

def firstLink : CTransaction cSHA256 where
  toCMutableTransaction := plainTransaction [⟨fundingOutpoint, [], SEQUENCE_FINAL, []⟩] [⟨4000000000, [0x51]⟩]
  hash := BaseBlob.ofNat 32 0xa657d8e58aa191fc2f4ae9aca7a5479f63209a6ac0488a931be9a0870a37fd6a
  computeHash_eq := by decide +kernel

/-- Spends the output of `firstLink`. -/
def secondLink : CTransaction cSHA256 where
  toCMutableTransaction := plainTransaction
    [⟨⟨BaseBlob.ofNat 32 0xa657d8e58aa191fc2f4ae9aca7a5479f63209a6ac0488a931be9a0870a37fd6a, 0⟩, [], SEQUENCE_FINAL,
      []⟩] [⟨3000000000, [0x51]⟩]
  hash := BaseBlob.ofNat 32 0x64e86d97a09366159b6d20684777eec30ec4c0084c7e75c9b422b4880b96e3ff
  computeHash_eq := by decide +kernel

/-- Spends the output of `secondLink`. -/
def thirdLink : CTransaction cSHA256 where
  toCMutableTransaction := plainTransaction
    [⟨⟨BaseBlob.ofNat 32 0x64e86d97a09366159b6d20684777eec30ec4c0084c7e75c9b422b4880b96e3ff, 0⟩, [], SEQUENCE_FINAL,
      []⟩] [⟨2000000000, [0x51]⟩]
  hash := BaseBlob.ofNat 32 0xef4de8d03bb48b67102cd097b6a24e85ddfbad535fbb2a4a2e2c32bfaba5e82d
  computeHash_eq := by decide +kernel

def linkEntry (tx : CTransaction cSHA256) : CTxMemPoolEntry cSHA256 := CTxMemPoolEntry.make tx 1000 0 0 700

def chainTx (tx : CTransaction cSHA256) : Prop := tx = firstLink ∨ tx = secondLink ∨ tx = thirdLink

def chainRank (id : Uint256) : ℕ :=
  if id = thirdLink.hash then 3 else if id = secondLink.hash then 2 else if id = firstLink.hash then 1 else 0

lemma acyclic_of_rank {α : Type} {r : α → α → Prop} (rank : α → ℕ) (h : ∀ a b, r a b → rank b < rank a) (a : α) :
    ¬ Relation.TransGen r a a := by
  have hlt : ∀ b, Relation.TransGen r a b → rank b < rank a := by
    intro b hb
    induction hb with
    | single hstep => exact h _ _ hstep
    | tail _ hstep ih => exact (h _ _ hstep).trans ih
  exact fun hcycle => lt_irrefl _ (hlt a hcycle)

lemma chain_acyclic (id : Uint256) : ¬ Relation.TransGen (SpendsKnown chainTx) id id := by
  apply acyclic_of_rank chainRank
  rintro child parent ⟨tx, rfl | rfl | rfl, rfl, txin, htxin, rfl⟩
  · rw [List.mem_singleton.mp htxin]
    decide +kernel
  · rw [List.mem_singleton.mp htxin]
    decide +kernel
  · rw [List.mem_singleton.mp htxin]
    decide +kernel

def addableCheck (pool : CTxMemPool cSHA256) (tx : CTransaction cSHA256) (setAncestors : SetEntries) : Bool :=
  decide (tx.hash ∉ pool.mapTx) && tx.vin.all (fun txin => (pool.mapNextTx.lookup txin.prevout).isNone) &&
    decide ((calculateMemPoolAncestors pool nNoLimit (linkEntry tx) true).toOption = some setAncestors)

lemma addable_of_check {pool : CTxMemPool cSHA256} {tx : CTransaction cSHA256} {setAncestors : SetEntries}
    (htx : chainTx tx) (h : addableCheck pool tx setAncestors = true) :
    Addable chainTx pool (linkEntry tx) setAncestors := by
  unfold addableCheck at h
  rw [Bool.and_eq_true, Bool.and_eq_true, decide_eq_true_eq, decide_eq_true_eq, List.all_eq_true] at h
  obtain ⟨⟨hnew, hfree⟩, hset⟩ := h
  refine ⟨htx, CTxMemPoolEntry.fresh_make tx 1000 0 0 700, hnew, ?_, nNoLimit, ?_⟩
  · intro txin htxin
    exact isNone_iff_eq_none.mp (hfree txin htxin)
  · exact eq_ok_of_toOption hset

lemma exists_addLink {pool : CTxMemPool cSHA256} {tx : CTransaction cSHA256} {setAncestors : SetEntries}
    (hinv : BookInvariant chainTx pool ∅) (htx : chainTx tx)
    (hcheck : (addableCheck pool tx setAncestors && decide (pool.spendersOf tx.hash = ∅)) = true) :
    ∃ pool', pool.addUnchecked (linkEntry tx) setAncestors = some pool' ∧ BookInvariant chainTx pool' ∅ := by
  obtain ⟨haddable, hnone⟩ := (Bool.and_eq_true _ _).mp hcheck
  have hchildren : ∀ it, ¬ SpendsFrom pool it tx.hash := by
    rintro it ⟨e, he, hspends⟩
    have hmem : it ∈ pool.spendersOf tx.hash :=
      hinv.readded.consistent.mem_spendersOf.mpr ⟨e.core, by rw [coreAt, he]; rfl, hspends⟩
    rw [of_decide_eq_true hnone] at hmem
    exact notMem_empty it hmem
  have hin : (BookCall.addUnchecked (linkEntry tx) setAncestors).InStep chainTx pool ∅ :=
    ⟨rfl, addable_of_check htx haddable, hchildren⟩
  exact hinv.call chain_acyclic hin

lemma bookInvariant_empty : BookInvariant chainTx CTxMemPool.empty ∅ :=
  bookInvariant_of_bookReachable chain_acyclic .empty

lemma separate_singleton {sha256 : Bytes → Uint256} {pool : CTxMemPool sha256} {b : Uint256}
    (h : ∀ child parent, pool.Spends child parent → parent = b) : Separate pool {b} := by
  intro x y hsame hreach
  rw [mem_singleton, mem_singleton] at hsame
  by_cases hx : x = b
  · rw [hx, hsame.mp hx]
  · obtain rfl | ⟨z, hz, -⟩ := Relation.ReflTransGen.cases_head hreach
    · exact Relation.ReflTransGen.refl
    · exact absurd (h z x hz) hx

/-- The last transaction of the chain is in the pool when the one before is added again. -/
theorem accounting_of_bookReachable_secondLink :
    ∃ pool₁ pool₂ pool, CTxMemPool.empty.addUnchecked (linkEntry thirdLink) ∅ = some pool₁ ∧
      pool₁.addUnchecked (linkEntry secondLink) ∅ = some pool₂ ∧
      pool₂.updateTransactionsFromBlock [secondLink.hash] = some pool ∧ Accounting pool := by
  have hcheck₁ : addableCheck CTxMemPool.empty thirdLink ∅ = true := by decide +kernel
  have hadd₁ := addable_of_check (Or.inr (Or.inr rfl)) hcheck₁
  have hin₁ : (BookCall.addUnchecked (linkEntry thirdLink) ∅).InStep chainTx CTxMemPool.empty ∅ :=
    ⟨rfl, hadd₁, fun it hspends => nomatch hspends.choose_spec.1⟩
  obtain ⟨pool₁, hrun₁⟩ := (accounting_of_bookReachable chainTx chain_acyclic _ _ .empty).2 _ hin₁
  have hreach₁ := BookReachable.call _ .empty hin₁ hrun₁
  have hcheck₂ : (CTxMemPool.empty.addUnchecked (linkEntry thirdLink) ∅).map (addableCheck · secondLink ∅) =
      some true := by
    decide +kernel
  have hrun₁ : CTxMemPool.empty.addUnchecked (linkEntry thirdLink) ∅ = some pool₁ := hrun₁
  rw [hrun₁, map_some, Option.some.injEq] at hcheck₂
  have hadd₂ := addable_of_check (Or.inr (Or.inl rfl)) hcheck₂
  have hin₂ : (BookCall.addAgain (linkEntry secondLink) ∅).InStep chainTx pool₁ ∅ :=
    ⟨hadd₂, fun it hit => absurd hit (notMem_empty it)⟩
  obtain ⟨pool₂, hrun₂⟩ := (accounting_of_bookReachable chainTx chain_acyclic _ _ hreach₁).2 _ hin₂
  have hreach₂ := BookReachable.call _ hreach₁ hin₂ hrun₂
  have hrun₂ : pool₁.addUnchecked (linkEntry secondLink) ∅ = some pool₂ := hrun₂
  have hout : ((CTxMemPool.empty.addUnchecked (linkEntry thirdLink) ∅).bind
      (·.addUnchecked (linkEntry secondLink) ∅)).map
        (fun pool => decide (fundingOutpoint.hash ∉ pool.mapTx ∧ firstLink.hash ∉ pool.mapTx)) = some true := by
    decide +kernel
  rw [hrun₁, bind_some, hrun₂, map_some, Option.some.injEq, decide_eq_true_eq] at hout
  have hspends : ∀ child parent, pool₂.Spends child parent → parent = secondLink.hash := by
    intro child parent hspends
    obtain ⟨tx, rfl | rfl | rfl, -, txin, htxin, rfl⟩ :=
      (bookInvariant_of_bookReachable chain_acyclic hreach₂).spendsKnown hspends
    · rw [List.mem_singleton.mp htxin] at hspends
      exact absurd hspends.1 hout.1
    · rw [List.mem_singleton.mp htxin] at hspends
      exact absurd hspends.1 hout.2
    · rw [List.mem_singleton.mp htxin]
      rfl
  have hin₃ : (BookCall.updateTransactionsFromBlock [secondLink.hash]).InStep chainTx pool₂ {secondLink.hash} :=
    ⟨List.nodup_singleton _, rfl, List.pairwise_singleton _ _, separate_singleton hspends⟩
  obtain ⟨pool, hrun₃⟩ := (accounting_of_bookReachable chainTx chain_acyclic _ _ hreach₂).2 _ hin₃
  have hreach₃ := BookReachable.call _ hreach₂ hin₃ hrun₃
  exact ⟨pool₁, pool₂, pool, hrun₁, hrun₂, hrun₃,
    ((accounting_of_bookReachable chainTx chain_acyclic _ _ hreach₃).1 rfl).1⟩

lemma nCountWithDescendants_eq {sha256 : Bytes → Uint256} {pool : CTxMemPool sha256} (hacc : Accounting pool)
    {it : Uint256} (hit : it ∈ pool.mapTx) :
    pool.valueAt (·.nCountWithDescendants) it = (pool.descendants it).card := by
  obtain ⟨e, he⟩ := exists_coreAt hit
  have hcount := congrArg (fun s => s.2.2) (hacc.exact.descendants it e he)
  rw [Pi.zero_apply, add_zero] at hcount
  rw [valueAt_eq_of_core (fun _ => rfl) he]
  refine hcount.trans ?_
  have hone : ∀ y ∈ pool.descendants it, (pool.descendantShareAt y).2.2 = 1 := by
    intro y hy
    obtain ⟨ey, hey⟩ := exists_coreAt (Finmap.mem_keys.mp (mem_below.mp hy).1)
    rw [descendantShareAt_eq hey]
    rfl
  rw [Prod.snd_sum, Prod.snd_sum, sum_congr rfl hone]
  simp

lemma spends_of_mapNextTx {sha256 : Bytes → Uint256} {pool : CTxMemPool sha256} (hacc : Accounting pool)
    {o : COutPoint} {it : Uint256} (hmem : o.hash ∈ pool.mapTx)
    (h : (pool.mapNextTx.lookup o).map (·.hash) = some it) : pool.Spends it o.hash := by
  obtain ⟨tx, htx, rfl⟩ := map_eq_some_iff.mp h
  obtain ⟨it, e, he, rfl, txin, htxin, rfl⟩ := (hacc.next o tx).mp htx
  rw [hacc.linked.ids it e he]
  exact ⟨hmem, e, he, txin, htxin, rfl⟩

/-- If the parent of the transaction that is added again is in the pool too, it does not learn of its new
descendant. -/
theorem not_accounting_secondLink :
    (∀ id, ¬ Relation.TransGen (SpendsKnown chainTx) id id) ∧
      ∃ pool₁ pool₂ pool₃ pool, CTxMemPool.empty.addUnchecked (linkEntry thirdLink) ∅ = some pool₁ ∧
        pool₁.addUnchecked (linkEntry firstLink) ∅ = some pool₂ ∧
        pool₂.addUnchecked (linkEntry secondLink) {firstLink.hash} = some pool₃ ∧
        BookReachable chainTx pool₃ {secondLink.hash} ∧
        pool₃.updateTransactionsFromBlock [secondLink.hash] = some pool ∧ ¬ Accounting pool := by
  have hin₁ : (BookCall.addUnchecked (linkEntry thirdLink) ∅).InStep chainTx CTxMemPool.empty ∅ :=
    ⟨rfl, addable_of_check (Or.inr (Or.inr rfl)) (by decide +kernel), fun it hspends => nomatch hspends.choose_spec.1⟩
  obtain ⟨pool₁, hrun₁, hinv₁⟩ := (bookInvariant_of_bookReachable chain_acyclic .empty).call chain_acyclic hin₁
  have hreach₁ := BookReachable.call _ .empty hin₁ hrun₁
  have hrun₁ : CTxMemPool.empty.addUnchecked (linkEntry thirdLink) ∅ = some pool₁ := hrun₁
  have hcheck₂ : (CTxMemPool.empty.addUnchecked (linkEntry thirdLink) ∅).map (fun pool =>
      (addableCheck pool firstLink ∅, decide (pool.spendersOf firstLink.hash = ∅))) = some (true, true) := by
    decide +kernel
  rw [hrun₁, map_some, Option.some.injEq, Prod.mk.injEq, decide_eq_true_eq] at hcheck₂
  have hchildren₂ : ∀ it, ¬ SpendsFrom pool₁ it firstLink.hash := by
    rintro it ⟨e, he, hspends⟩
    have hmem : it ∈ pool₁.spendersOf firstLink.hash :=
      hinv₁.readded.consistent.mem_spendersOf.mpr ⟨e.core, by rw [coreAt, he]; rfl, hspends⟩
    rw [hcheck₂.2] at hmem
    exact notMem_empty it hmem
  have hin₂ : (BookCall.addUnchecked (linkEntry firstLink) ∅).InStep chainTx pool₁ ∅ :=
    ⟨rfl, addable_of_check (Or.inl rfl) hcheck₂.1, hchildren₂⟩
  obtain ⟨pool₂, hrun₂, -⟩ := (bookInvariant_of_bookReachable chain_acyclic hreach₁).call chain_acyclic hin₂
  have hreach₂ := BookReachable.call _ hreach₁ hin₂ hrun₂
  have hrun₂ : pool₁.addUnchecked (linkEntry firstLink) ∅ = some pool₂ := hrun₂
  have hcheck₃ : ((CTxMemPool.empty.addUnchecked (linkEntry thirdLink) ∅).bind
      (·.addUnchecked (linkEntry firstLink) ∅)).map (addableCheck · secondLink {firstLink.hash}) = some true := by
    decide +kernel
  rw [hrun₁, bind_some, hrun₂, map_some, Option.some.injEq] at hcheck₃
  have hin₃ : (BookCall.addAgain (linkEntry secondLink) {firstLink.hash}).InStep chainTx pool₂ ∅ :=
    ⟨addable_of_check (Or.inr (Or.inl rfl)) hcheck₃, fun it hit => absurd hit (notMem_empty it)⟩
  obtain ⟨pool₃, hrun₃, -⟩ := (bookInvariant_of_bookReachable chain_acyclic hreach₂).call chain_acyclic hin₃
  have hreach₃ := BookReachable.call _ hreach₂ hin₃ hrun₃
  have hrun₃ : pool₂.addUnchecked (linkEntry secondLink) {firstLink.hash} = some pool₃ := hrun₃
  -- The run ends with a count of two, though both transactions stand below the first one.
  have hfinal : (((CTxMemPool.empty.addUnchecked (linkEntry thirdLink) ∅).bind
      (·.addUnchecked (linkEntry firstLink) ∅)).bind (·.addUnchecked (linkEntry secondLink) {firstLink.hash})).bind
        (fun pool => (pool.updateTransactionsFromBlock [secondLink.hash]).map (fun pool =>
          decide (firstLink.hash ∈ pool.mapTx ∧ secondLink.hash ∈ pool.mapTx ∧
            (pool.mapNextTx.lookup ⟨firstLink.hash, 0⟩).map (·.hash) = some secondLink.hash ∧
            (pool.mapNextTx.lookup ⟨secondLink.hash, 0⟩).map (·.hash) = some thirdLink.hash ∧
            pool.valueAt (·.nCountWithDescendants) firstLink.hash = 2))) = some true := by
    decide +kernel
  rw [hrun₁, bind_some, hrun₂, bind_some, hrun₃, bind_some, map_eq_some_iff] at hfinal
  obtain ⟨pool, hpool, hfacts⟩ := hfinal
  obtain ⟨hfirst, hsecond, hnext₁, hnext₂, hcount⟩ := of_decide_eq_true hfacts
  refine ⟨chain_acyclic, pool₁, pool₂, pool₃, pool, hrun₁, hrun₂, hrun₃, hreach₃, hpool, ?_⟩
  intro hacc
  have hspends₁ := spends_of_mapNextTx hacc hfirst hnext₁
  have hspends₂ := spends_of_mapNextTx hacc hsecond hnext₂
  have hbelow : ({firstLink.hash, secondLink.hash, thirdLink.hash} : SetEntries) ⊆ pool.descendants firstLink.hash := by
    have hreach₁ : Relation.ReflTransGen (fun parent child => pool.Spends child parent) firstLink.hash
        secondLink.hash := Relation.ReflTransGen.single hspends₁
    intro y hy
    rw [hacc.linked.mem_descendants hfirst, hacc.reaches_iff]
    rw [mem_insert, mem_insert, mem_singleton] at hy
    obtain rfl | rfl | rfl := hy
    · exact Relation.ReflTransGen.refl
    · exact hreach₁
    · exact hreach₁.tail hspends₂
  have hthree : ({firstLink.hash, secondLink.hash, thirdLink.hash} : SetEntries).card = 3 := by decide +kernel
  have hcard := card_le_card hbelow
  have heq := nCountWithDescendants_eq hacc hfirst
  omega

end Chain

end MutableBitcoin
