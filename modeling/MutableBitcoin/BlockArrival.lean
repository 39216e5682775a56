import MutableBitcoin.BlockIndexInvariant

/-!
# Headers and blocks arrive

`AcceptBlockHeader` and `AcceptBlock` keep the invariants of the block index. A header puts a leaf on the tree.
-/

namespace MutableBitcoin
open Lib List Function

namespace ChainState

variable {ctx : ChainContext} {s s' : ChainState} {a b c p t hash prev : Uint256} {queue : List Uint256}

section Header

lemma getBlockProof_pos {sha256 : Bytes → Uint256} {block : CBlockHeader} {params : ConsensusParams}
    (h : (checkBlockHeader sha256 block params true).isOk = true) : 0 < getBlockProof block.nBits := by
  have hproof : checkProofOfWork (block.getHash sha256) block.nBits params = true := by
    unfold checkBlockHeader rejectIf at h
    cases hproof : checkProofOfWork (block.getHash sha256) block.nBits params with
    | true => rfl
    | false =>
      rw [hproof] at h
      cases h
  unfold checkProofOfWork at hproof
  unfold getBlockProof
  dsimp only at hproof ⊢
  rw [if_neg]
  · exact Nat.succ_pos _
  · intro hbad
    rw [if_pos] at hproof
    · cases hproof
    · simp only [Bool.or_eq_true, decide_eq_true_eq] at hbad ⊢
      tauto

/-- A leaf was put on `prev`. -/
structure Added (s s' : ChainState) (hash prev : Uint256) : Prop where
  notMem : hash ∉ s.mapBlockIndex
  prev_mem : prev ∈ s.mapBlockIndex
  map : s'.mapBlockIndex = hash :: s.mapBlockIndex
  entry : ∀ b, b ≠ hash → s'.entry b = s.entry b
  pprev : (s'.entry hash).pprev = some prev
  nHeight : (s'.entry hash).nHeight = (s.entry prev).nHeight + 1
  nChainWork : (s.entry prev).nChainWork < (s'.entry hash).nChainWork
  nTx : (s'.entry hash).nTx = 0
  nChainTx : (s'.entry hash).nChainTx = 0
  nSequenceId : (s'.entry hash).nSequenceId = 0
  nStatus : (s'.entry hash).nStatus = ⟨BLOCK_VALID_TREE, false, false, false, false, false⟩
  chain : s'.chainActive = s.chainActive
  candidates : s'.setBlockIndexCandidates = s.setBlockIndexCandidates
  unlinked : s'.mapBlocksUnlinked = s.mapBlocksUnlinked
  reverseSequenceId : s'.nBlockReverseSequenceId = s.nBlockReverseSequenceId

lemma added_addToBlockIndex {block : CBlockHeader} (hnew : hash ∉ s.mapBlockIndex)
    (hprev : block.hashPrevBlock ∈ s.mapBlockIndex) (hproof : 0 < getBlockProof block.nBits) :
    Added s (s.addToBlockIndex hash block) hash block.hashPrevBlock := by
  have heq : s.addToBlockIndex hash block =
      { s with
        mapBlockIndex := hash :: s.mapBlockIndex
        entry := Function.update s.entry hash
          { CBlockIndex.ofHeader block with
            pprev := some block.hashPrevBlock
            nHeight := (s.entry block.hashPrevBlock).nHeight + 1
            nTimeMax := max (s.entry block.hashPrevBlock).nTimeMax block.nTime
            nChainWork := (s.entry block.hashPrevBlock).nChainWork + getBlockProof block.nBits
            nStatus := ⟨BLOCK_VALID_TREE, false, false, false, false, false⟩ } } := by
    unfold addToBlockIndex
    rw [if_neg hnew]
    dsimp only
    rw [if_pos hprev]
    rfl
  rw [heq]
  constructor
  case entry => exact fun b hb => update_of_ne hb _ _
  case nChainWork =>
    dsimp only
    rw [update_self]
    exact Nat.lt_add_of_pos_right hproof
  case notMem => exact hnew
  case prev_mem => exact hprev
  case map => rfl
  case chain => rfl
  case candidates => rfl
  case unlinked => rfl
  case reverseSequenceId => rfl
  all_goals simp [CBlockIndex.ofHeader, CBlockIndex.null]

namespace Added

variable (h : Added s s' hash prev)

include h

lemma ne_of_mem (hb : b ∈ s.mapBlockIndex) : b ≠ hash := by
  rintro rfl
  exact h.notMem hb

lemma entry_of_mem (hb : b ∈ s.mapBlockIndex) : s'.entry b = s.entry b := h.entry b (h.ne_of_mem hb)

lemma leveled (hs : Tree s) : Leveled (fun b => (s'.entry b).pprev) (fun b => (s'.entry b).nHeight) where
  root b hb := by
    by_cases heq : b = hash
    · rw [heq, h.pprev] at hb
      cases hb
    · rw [h.entry b heq] at hb ⊢
      exact hs.leveled.root b hb
  step b p hp := by
    by_cases heq : b = hash
    · rw [heq, h.pprev] at hp
      obtain rfl := Option.some.inj hp
      rw [heq, h.nHeight, h.entry_of_mem h.prev_mem]
    · rw [h.entry b heq] at hp ⊢
      rw [h.entry_of_mem (hs.parent_mem b p hp)]
      exact hs.leveled.step b p hp

lemma lineage_of_ne (hs : Tree s) (hb : b ≠ hash) : s'.lineage b = s.lineage b := by
  induction b using hs.leveled.induction with
  | hroot b hp =>
    have hp' : (s'.entry b).pprev = none := by rwa [h.entry b hb]
    rw [hs.lineage_root hp]
    exact (h.leveled hs).lineage_root hp'
  | hstep b p hp ih =>
    have hp' : (s'.entry b).pprev = some p := by rwa [h.entry b hb]
    rw [hs.lineage_step hp, ← ih (h.ne_of_mem (hs.parent_mem b p hp))]
    exact (h.leveled hs).lineage_step hp'

lemma lineage_of_mem (hs : Tree s) (hb : b ∈ s.mapBlockIndex) : s'.lineage b = s.lineage b :=
  h.lineage_of_ne hs (h.ne_of_mem hb)

lemma lineage_hash (hs : Tree s) : s'.lineage hash = hash :: s.lineage prev := by
  rw [← h.lineage_of_mem hs h.prev_mem]
  exact (h.leveled hs).lineage_step h.pprev

lemma tree (hs : Tree s) : Tree s' where
  leveled := h.leveled hs
  parent_mem b p hp := by
    rw [h.map]
    by_cases heq : b = hash
    · rw [heq, h.pprev] at hp
      obtain rfl := Option.some.inj hp
      exact mem_cons_of_mem _ h.prev_mem
    · rw [h.entry b heq] at hp
      exact mem_cons_of_mem _ (hs.parent_mem b p hp)
  root := by
    obtain ⟨g, hg⟩ := hs.root
    refine ⟨g, ?_⟩
    rw [h.map, forall_mem_cons, h.lineage_hash hs]
    refine ⟨mem_cons_of_mem _ (hg prev h.prev_mem), fun b hb => ?_⟩
    rw [h.lineage_of_mem hs hb]
    exact hg b hb
  work b p hp := by
    by_cases heq : b = hash
    · rw [heq, h.pprev] at hp
      obtain rfl := Option.some.inj hp
      rw [heq, h.entry_of_mem h.prev_mem]
      exact h.nChainWork
    · rw [h.entry b heq] at hp ⊢
      rw [h.entry_of_mem (hs.parent_mem b p hp)]
      exact hs.work b p hp

lemma rank_of_mem (hb : b ∈ s.mapBlockIndex) : rank ctx s' b = rank ctx s b := by
  unfold rank
  rw [h.entry_of_mem hb]

lemma forall_lineage_iff (hs : Tree s) (hb : b ∈ s.mapBlockIndex) (P : CBlockIndex → Prop) :
    (∀ a ∈ s'.lineage b, P (s'.entry a)) ↔ ∀ a ∈ s.lineage b, P (s.entry a) := by
  rw [h.lineage_of_mem hs hb]
  constructor
  · intro hall a ha
    rw [← h.entry_of_mem (hs.mem_of_lineage hb ha)]
    exact hall a ha
  · intro hall a ha
    rw [h.entry_of_mem (hs.mem_of_lineage hb ha)]
    exact hall a ha

lemma mem_cases (hb : b ∈ s'.mapBlockIndex) : b = hash ∨ b ∈ s.mapBlockIndex := by
  rw [h.map] at hb
  exact mem_cons.mp hb

lemma mem_of_mem (hb : b ∈ s.mapBlockIndex) : b ∈ s'.mapBlockIndex := by
  rw [h.map]
  exact mem_cons_of_mem _ hb

lemma mem_of_linked (hb : b ∈ s'.mapBlockIndex) (hlinked : (s'.entry b).nChainTx ≠ 0) : b ∈ s.mapBlockIndex := by
  cases h.mem_cases hb with
  | inl heq => rw [heq, h.nChainTx] at hlinked; exact absurd rfl hlinked
  | inr hb => exact hb

lemma mem_of_data (hb : b ∈ s'.mapBlockIndex) (hdata : (s'.entry b).nTx ≠ 0) : b ∈ s.mapBlockIndex := by
  cases h.mem_cases hb with
  | inl heq => rw [heq, h.nTx] at hdata; exact absurd rfl hdata
  | inr hb => exact hb

lemma linkInv (hs : BlockIndexInv ctx s t []) : LinkInv s' := by
  have htree := hs.tree
  constructor
  case complete =>
    intro b hb hlinked
    have hb := h.mem_of_linked hb hlinked
    rw [h.entry_of_mem hb] at hlinked
    exact (h.forall_lineage_iff htree hb (fun e => e.nTx ≠ 0)).mpr (hs.complete b hb hlinked)
  case nChainTx_sum =>
    intro b hb hlinked
    have hb := h.mem_of_linked hb hlinked
    rw [h.entry_of_mem hb] at hlinked
    rw [h.entry_of_mem hb, h.lineage_of_mem htree hb, hs.nChainTx_sum b hb hlinked]
    congr 1
    apply map_congr_left
    intro a ha
    rw [h.entry_of_mem (htree.mem_of_lineage hb ha)]
  case nChainTx_parent =>
    intro b hb hlinked p hp
    have hb := h.mem_of_linked hb hlinked
    rw [h.entry_of_mem hb] at hlinked hp
    rw [h.entry_of_mem (htree.parent_mem b p hp)]
    exact hs.nChainTx_parent b hb hlinked p hp

lemma waitInv (hs : BlockIndexInv ctx s t []) : WaitInv s' [] := by
  have htree := hs.tree
  constructor
  case queued => exact fun b hb => absurd hb not_mem_nil
  case queue_nodup => exact nodup_nil
  case unlinked =>
    intro b hb hdata hzero hqueue hok
    have hb := h.mem_of_data hb hdata
    rw [h.entry_of_mem hb] at hdata hzero
    rw [h.entry_of_mem hb, h.unlinked]
    exact hs.unlinked b hb hdata hzero hqueue
      ((h.forall_lineage_iff htree hb (fun e => e.nStatus.failedValid = false)).mp hok)
  case unlinked_pair =>
    intro q hq
    rw [h.unlinked] at hq
    obtain ⟨hb, hdata, p, hq, hp, hzero⟩ := hs.unlinked_pair q hq
    rw [h.entry_of_mem hb]
    refine ⟨h.mem_of_mem hb, hdata, p, hq, hp, ?_⟩
    rw [h.entry_of_mem (htree.parent_mem _ p hp)]
    exact hzero
  case unlinked_nodup =>
    rw [h.unlinked]
    exact hs.unlinked_nodup

lemma candidateInv (hs : BlockIndexInv ctx s t []) : CandidateInv ctx s' t := by
  have ht := hs.active.mem
  constructor
  case candidate =>
    intro b hb hlinked hok hle
    have hb := h.mem_of_linked hb hlinked
    rw [h.entry_of_mem hb] at hlinked
    rw [h.rank_of_mem ht, h.rank_of_mem hb] at hle
    rw [h.candidates]
    exact hs.candidate b hb hlinked
      ((h.forall_lineage_iff hs.tree hb (fun e => e.nStatus.failed = false)).mp hok) hle
  case candidates =>
    intro c hc
    rw [h.candidates] at hc
    obtain ⟨hmem, hlinked, hle⟩ := hs.candidates c hc
    rw [h.entry_of_mem hmem, h.rank_of_mem ht, h.rank_of_mem hmem]
    exact ⟨h.mem_of_mem hmem, hlinked, hle⟩

/-- The new block has no transactions, and nothing changes for the others. -/
theorem inv (hs : BlockIndexInv ctx s t []) : BlockIndexInv ctx s' t [] := by
  have htree := hs.tree
  have ht := hs.active.mem
  constructor
  case toLinkInv => exact h.linkInv hs
  case toWaitInv => exact h.waitInv hs
  case toCandidateInv => exact h.candidateInv hs
  case tree => exact h.tree htree
  case active =>
    constructor
    · rw [h.chain, h.lineage_of_mem htree ht, hs.active.chain]
    · exact h.mem_of_mem ht
  case genesis =>
    rw [h.entry_of_mem hs.genesis.1]
    exact ⟨h.mem_of_mem hs.genesis.1, hs.genesis.2⟩
  case chain =>
    intro a ha
    rw [h.lineage_of_mem htree ht] at ha
    rw [h.entry_of_mem (htree.mem_of_lineage ht ha)]
    exact hs.chain a ha
  case haveData =>
    intro b hb
    cases h.mem_cases hb with
    | inl heq => rw [heq, h.nStatus, h.nTx]; decide
    | inr hb => rw [h.entry_of_mem hb]; exact hs.haveData b hb
  case explained =>
    intro b hb hfailed
    cases h.mem_cases hb with
    | inl heq =>
      rw [heq, h.nStatus] at hfailed
      cases hfailed
    | inr hb =>
      rw [h.entry_of_mem hb] at hfailed
      obtain ⟨a, ha, hinvalid⟩ := hs.explained b hb hfailed
      rw [h.lineage_of_mem htree hb]
      refine ⟨a, ha, ?_⟩
      rw [h.entry_of_mem (htree.mem_of_lineage hb ha)]
      exact hinvalid
  case validity =>
    intro b hb
    cases h.mem_cases hb with
    | inl heq => rw [heq, h.nStatus, h.nTx]; decide
    | inr hb => rw [h.entry_of_mem hb]; exact hs.validity b hb
  case nSequenceId =>
    intro b hb hzero
    cases h.mem_cases hb with
    | inl heq => rw [heq, h.nSequenceId]
    | inr hb =>
      rw [h.entry_of_mem hb] at hzero ⊢
      exact hs.nSequenceId b hb hzero
  case reverseSequenceId =>
    rw [h.reverseSequenceId]
    exact hs.reverseSequenceId

end Added

end Header

section Mark

/-- A block without data is marked as invalid. -/
theorem BlockIndexInv.mark (hs : BlockIndexInv ctx s t []) (hb : b ∈ s.mapBlockIndex) (hdata : (s.entry b).nTx = 0) :
    BlockIndexInv ctx (s.modifyStatus b (fun st => { st with failedValid := true })) t [] := by
  have hframe : Frame s (s.modifyStatus b (fun st => { st with failedValid := true })) :=
    frame_modifyStatus b (fun _ => rfl) (fun _ => rfl)
  apply hs.of_frame hframe (hs.ready.shrink hframe.toSameTree rfl (List.Subset.refl _))
  · intro a ha
    obtain ⟨hlinked, hvalid, hok⟩ := hs.chain a ha
    refine ⟨hlinked, hvalid, ?_⟩
    rw [← Bool.not_eq_true, failed_mark_iff, not_or, Bool.not_eq_true]
    refine ⟨?_, hok⟩
    rintro rfl
    exact hs.nTx_chain ha hdata
  · exact fun c hc => failedValid_mark_iff.mpr (Or.inr hc)
  · intro c hc hfailed
    rw [hframe.toSameTree.map] at hc
    simp only [hframe.toSameTree.lineage]
    cases failed_mark_iff.mp hfailed with
    | inl heq =>
      rw [heq]
      exact ⟨b, hs.tree.self_mem b, failedValid_mark_iff.mpr (Or.inl rfl)⟩
    | inr hold =>
      obtain ⟨a, ha, hinvalid⟩ := hs.explained c hc hold
      exact ⟨a, ha, failedValid_mark_iff.mpr (Or.inr hinvalid)⟩
  · intro c hc hlinked hok hle
    refine hs.candidate c hc hlinked (fun a ha => ?_) hle
    have hnot := hok a (by rwa [hframe.toSameTree.lineage])
    rw [← Bool.not_eq_true, failed_mark_iff, not_or, Bool.not_eq_true] at hnot
    exact hnot.2

end Mark

section Receive

/-- The data of the block `b` was stored. -/
structure Received (s s' : ChainState) (b : Uint256) : Prop where
  entry : ∀ c, c ≠ b → s'.entry c = s.entry c
  shape : SameShape s s'
  nSequenceId : (s'.entry b).nSequenceId = (s.entry b).nSequenceId
  nTx : (s'.entry b).nTx ≠ 0
  nChainTx : (s'.entry b).nChainTx = 0
  haveData : (s'.entry b).nStatus.haveData = true
  failedValid : (s'.entry b).nStatus.failedValid = (s.entry b).nStatus.failedValid
  failedChild : (s'.entry b).nStatus.failedChild = (s.entry b).nStatus.failedChild
  validity : (s.entry b).nStatus.failed = false → (s.entry b).nStatus.validity ≤ (s'.entry b).nStatus.validity ∧
    BLOCK_VALID_TRANSACTIONS ≤ (s'.entry b).nStatus.validity
  chain : s'.chainActive = s.chainActive
  candidates : s'.setBlockIndexCandidates = s.setBlockIndexCandidates
  reverseSequenceId : s'.nBlockReverseSequenceId = s.nBlockReverseSequenceId

namespace Received

variable (h : Received s s' b)

include h

lemma failed (c : Uint256) : (s'.entry c).nStatus.failed = (s.entry c).nStatus.failed := by
  by_cases heq : c = b
  · unfold BlockStatus.failed
    rw [heq, h.failedValid, h.failedChild]
  · rw [h.entry c heq]

lemma failedValid_eq (c : Uint256) : (s'.entry c).nStatus.failedValid = (s.entry c).nStatus.failedValid := by
  by_cases heq : c = b
  · rw [heq, h.failedValid]
  · rw [h.entry c heq]

lemma rank (c : Uint256) : rank ctx s' c = rank ctx s c := by
  unfold ChainState.rank
  rw [h.shape.nChainWork]
  by_cases heq : c = b
  · rw [heq, h.nSequenceId]
  · rw [h.entry c heq]

lemma nChainTx_eq (hs : LinkInv s) (htree : Tree s) (hb : b ∈ s.mapBlockIndex) (hzero : (s.entry b).nTx = 0)
    (c : Uint256) : (s'.entry c).nChainTx = (s.entry c).nChainTx := by
  by_cases heq : c = b
  · have hunlinked : (s.entry b).nChainTx = 0 := by
      by_contra hlinked
      exact hs.complete b hb hlinked b (htree.self_mem b) hzero
    rw [heq, h.nChainTx, hunlinked]
  · rw [h.entry c heq]

lemma nTx_eq (hzero : (s.entry b).nTx = 0) (hc : (s.entry c).nTx ≠ 0) : (s'.entry c).nTx = (s.entry c).nTx := by
  rw [h.entry c]
  rintro rfl
  exact hc hzero

section Inv

variable (hs : BlockIndexInv ctx s t []) (hb : b ∈ s.mapBlockIndex) (hzero : (s.entry b).nTx = 0)

include hs hb hzero

lemma linkInv : LinkInv s' := by
  have hlinked_iff := h.nChainTx_eq hs.toLinkInv hs.tree hb hzero
  constructor
  case complete =>
    intro c hc hlinked a ha
    rw [h.shape.map] at hc
    rw [hlinked_iff] at hlinked
    rw [h.shape.lineage] at ha
    have hdata := hs.complete c hc hlinked a ha
    rw [h.nTx_eq hzero hdata]
    exact hdata
  case nChainTx_sum =>
    intro c hc hlinked
    rw [h.shape.map] at hc
    rw [hlinked_iff] at hlinked ⊢
    rw [h.shape.lineage, hs.nChainTx_sum c hc hlinked]
    congr 1
    apply map_congr_left
    intro a ha
    rw [h.nTx_eq hzero (hs.complete c hc hlinked a ha)]
  case nChainTx_parent =>
    intro c hc hlinked p hp
    rw [h.shape.map] at hc
    rw [hlinked_iff] at hlinked ⊢
    rw [h.shape.pprev] at hp
    exact hs.nChainTx_parent c hc hlinked p hp

lemma candidateInv : CandidateInv ctx s' t := by
  have hlinked_iff := h.nChainTx_eq hs.toLinkInv hs.tree hb hzero
  constructor
  case candidate =>
    intro c hc hlinked hclean hle
    rw [h.shape.map] at hc
    rw [hlinked_iff] at hlinked
    rw [h.rank, h.rank] at hle
    rw [h.candidates]
    refine hs.candidate c hc hlinked (fun a ha => ?_) hle
    rw [← h.failed]
    exact hclean a (by rwa [h.shape.lineage])
  case candidates =>
    intro c hc
    rw [h.candidates] at hc
    rw [h.shape.map, hlinked_iff, h.rank, h.rank]
    exact hs.candidates c hc

/-- The block waits for the loop, or for an ancestor, or is behind an invalid block. -/
lemma waitInv (hqueue : ∀ c ∈ queue, c = b ∧ ∃ p, (s.entry b).pprev = some p ∧ (s.entry p).nChainTx ≠ 0)
    (hnodup : queue.Nodup) (hwaits : b ∉ queue → s.NoneInvalid b → ((s.entry b).pprev, b) ∈ s'.mapBlocksUnlinked)
    (hkept : ∀ q ∈ s.mapBlocksUnlinked, q ∈ s'.mapBlocksUnlinked)
    (hpair : ∀ q ∈ s'.mapBlocksUnlinked, q ∈ s.mapBlocksUnlinked ∨
      q.2 = b ∧ ∃ p, q.1 = some p ∧ (s.entry b).pprev = some p ∧ (s.entry p).nChainTx = 0)
    (hunlinked : s'.mapBlocksUnlinked.Nodup) : WaitInv s' queue := by
  have hlinked_iff := h.nChainTx_eq hs.toLinkInv hs.tree hb hzero
  constructor
  case queued =>
    intro c hc
    obtain ⟨rfl, p, hp, hlinked⟩ := hqueue c hc
    rw [h.shape.map, h.shape.pprev]
    refine ⟨hb, h.nTx, h.nChainTx, p, hp, ?_⟩
    rwa [hlinked_iff]
  case queue_nodup => exact hnodup
  case unlinked =>
    intro c hc hdata hzero' hqueue' hvalid
    rw [h.shape.map] at hc
    rw [hlinked_iff] at hzero'
    rw [h.shape.pprev]
    have hvalid' : s.NoneInvalid c := by
      intro a ha
      rw [← h.failedValid_eq]
      exact hvalid a (by rwa [h.shape.lineage])
    by_cases heq : c = b
    · rw [heq] at hqueue' hvalid' ⊢
      exact hwaits hqueue' hvalid'
    · rw [h.entry c heq] at hdata
      exact hkept _ (hs.unlinked c hc hdata hzero' not_mem_nil hvalid')
  case unlinked_pair =>
    intro q hq
    cases hpair q hq with
    | inl hold =>
      obtain ⟨hmem, hdata, p, hq, hp, hzero'⟩ := hs.unlinked_pair q hold
      rw [h.shape.map, h.shape.pprev, h.nTx_eq hzero hdata]
      exact ⟨hmem, hdata, p, hq, hp, (hlinked_iff p).trans hzero'⟩
    | inr hnew =>
      obtain ⟨heq, p, hq, hp, hzero'⟩ := hnew
      rw [heq, h.shape.map, h.shape.pprev]
      exact ⟨hb, h.nTx, p, hq, hp, (hlinked_iff p).trans hzero'⟩
  case unlinked_nodup => exact hunlinked

/-- What is left to show is that the block waits. -/
theorem inv (hok : (s.entry b).nStatus.failed = false) (hwait : WaitInv s' queue) : BlockIndexInv ctx s' t queue := by
  have hlinked_iff := h.nChainTx_eq hs.toLinkInv hs.tree hb hzero
  constructor
  case toLinkInv => exact h.linkInv hs hb hzero
  case toWaitInv => exact hwait
  case toCandidateInv => exact h.candidateInv hs hb hzero
  case tree => exact h.shape.tree hs.tree
  case active => exact ⟨by rw [h.chain, h.shape.lineage, hs.active.chain], by rw [h.shape.map]; exact hs.active.mem⟩
  case genesis =>
    rw [h.shape.map, h.shape.pprev]
    exact hs.genesis
  case chain =>
    intro a ha
    rw [h.shape.lineage] at ha
    rw [hlinked_iff, h.failed]
    exact hs.chain a ha
  case haveData =>
    intro c hc
    rw [h.shape.map] at hc
    by_cases heq : c = b
    · rw [heq]
      exact iff_of_true h.haveData h.nTx
    · rw [h.entry c heq]
      exact hs.haveData c hc
  case explained =>
    intro c hc hfailed
    rw [h.shape.map] at hc
    rw [h.failed] at hfailed
    simp only [h.shape.lineage, h.failedValid_eq]
    exact hs.explained c hc hfailed
  case validity =>
    intro c hc
    rw [h.shape.map] at hc
    by_cases heq : c = b
    · rw [heq]
      exact ⟨(hs.validity b hb).1.trans (h.validity hok).1, fun _ => (h.validity hok).2⟩
    · rw [h.entry c heq]
      exact hs.validity c hc
  case nSequenceId =>
    intro c hc hzero'
    rw [h.shape.map] at hc
    rw [hlinked_iff] at hzero'
    have hseq := hs.nSequenceId c hc hzero'
    by_cases heq : c = b
    · rw [heq, h.nSequenceId, ← heq]
      exact hseq
    · rw [h.entry c heq]
      exact hseq
  case reverseSequenceId =>
    rw [h.reverseSequenceId]
    exact hs.reverseSequenceId

end Inv

end Received

end Receive

section Link

/-- An iteration of the loop of `ReceivedBlockTransactions`, without its queue. -/
def linkStep (ctx : ChainContext) (s : ChainState) (b : Uint256) : ChainState :=
  { linkBlock ctx s b with
    mapBlocksUnlinked := s.mapBlocksUnlinked.filter (fun q => q.1 ≠ some b) }

lemma linkBlock_unlinked : (linkBlock ctx s b).mapBlocksUnlinked = s.mapBlocksUnlinked := by
  unfold linkBlock
  dsimp only
  split_ifs <;> rfl

lemma mem_unlinkedBehind : c ∈ s.unlinkedBehind b ↔ (some b, c) ∈ s.mapBlocksUnlinked := by
  unfold unlinkedBehind
  rw [mem_map]
  constructor
  · rintro ⟨q, hq, rfl⟩
    obtain ⟨hq, heq⟩ := mem_filter.mp hq
    rw [decide_eq_true_eq] at heq
    rwa [← heq]
  · intro hq
    exact ⟨_, mem_filter.mpr ⟨hq, decide_eq_true rfl⟩, rfl⟩

/-- The block `b` was linked on `p`. -/
structure LinkedOn (ctx : ChainContext) (s s' : ChainState) (b p : Uint256) : Prop where
  entry : ∀ c, c ≠ b → s'.entry c = s.entry c
  shape : SameShape s s'
  nTx : (s'.entry b).nTx = (s.entry b).nTx
  nChainTx : (s'.entry b).nChainTx = (s.entry p).nChainTx + (s.entry b).nTx
  nStatus : (s'.entry b).nStatus = (s.entry b).nStatus
  chain : s'.chainActive = s.chainActive
  unlinked : s'.mapBlocksUnlinked = s.mapBlocksUnlinked.filter (fun q => q.1 ≠ some b)
  candidates : ∀ c, c ∈ s'.setBlockIndexCandidates ↔
    c ∈ s.setBlockIndexCandidates ∨ c = b ∧ s'.worseThanTip ctx b = false
  reverseSequenceId : s'.nBlockReverseSequenceId = s.nBlockReverseSequenceId

lemma linkedOn_linkStep (hp : (s.entry b).pprev = some p) : LinkedOn ctx s (linkStep ctx s b) b p := by
  let e : CBlockIndex :=
    { s.entry b with
      nChainTx := (s.entry p).nChainTx + (s.entry b).nTx
      nSequenceId := s.nBlockSequenceId }
  let s₁ : ChainState :=
    { s with
      entry := Function.update s.entry b e
      nBlockSequenceId := s.nBlockSequenceId + 1 }
  have hlink : linkBlock ctx s b = if s₁.worseThanTip ctx b then s₁ else s₁.insertCandidate b := by
    unfold linkBlock modifyEntry
    rw [hp]
    rfl
  have hentry : (linkStep ctx s b).entry = Function.update s.entry b e := by
    unfold linkStep
    rw [hlink]
    split_ifs <;> rfl
  have hself : (linkStep ctx s b).entry b = e := by rw [hentry, update_self]
  have hother : ∀ c, c ≠ b → (linkStep ctx s b).entry c = s.entry c := by
    intro c hc
    rw [hentry, update_of_ne hc]
  have hchain : (linkStep ctx s b).chainActive = s.chainActive := by
    unfold linkStep
    rw [hlink]
    split_ifs <;> rfl
  have hworse : (linkStep ctx s b).worseThanTip ctx b = s₁.worseThanTip ctx b := by
    unfold worseThanTip tip workComparator
    rw [hchain, hentry]
  constructor
  case entry => exact hother
  case shape =>
    constructor
    case map =>
      unfold linkStep
      rw [hlink]
      split_ifs <;> rfl
    all_goals
      intro c
      by_cases hc : c = b
      · rw [hc, hself]
      · rw [hother c hc]
  case nTx => rw [hself]
  case nChainTx => rw [hself]
  case nStatus => rw [hself]
  case chain => exact hchain
  case unlinked => rfl
  case candidates =>
    intro c
    rw [hworse]
    unfold linkStep
    rw [hlink]
    cases s₁.worseThanTip ctx b with
    | true => simp [s₁]
    | false =>
      unfold insertCandidate
      simp [s₁, mem_insert_iff, or_comm]
  case reverseSequenceId =>
    unfold linkStep
    rw [hlink]
    split_ifs <;> rfl

namespace LinkedOn

variable (h : LinkedOn ctx s s' b p)

include h

lemma nStatus_eq (c : Uint256) : (s'.entry c).nStatus = (s.entry c).nStatus := by
  by_cases heq : c = b
  · rw [heq, h.nStatus]
  · rw [h.entry c heq]

lemma nTx_eq (c : Uint256) : (s'.entry c).nTx = (s.entry c).nTx := by
  by_cases heq : c = b
  · rw [heq, h.nTx]
  · rw [h.entry c heq]

lemma rank_of_ne {c : Uint256} (hc : c ≠ b) : rank ctx s' c = rank ctx s c := by
  unfold rank
  rw [h.entry c hc]

lemma complete_iff {c : Uint256} : s'.Complete c ↔ s.Complete c := by
  unfold Complete
  simp only [h.shape.lineage, h.nTx_eq]

section Inv

variable (hs : BlockIndexInv ctx s t (b :: queue)) (hp : (s.entry b).pprev = some p)

include hs

omit h in
lemma ne_of_linked (hc : (s.entry c).nChainTx ≠ 0) : c ≠ b := by
  rintro rfl
  exact hc (hs.queued c mem_cons_self).2.2.1

lemma nChainTx_of_linked (hc : (s.entry c).nChainTx ≠ 0) : (s'.entry c).nChainTx = (s.entry c).nChainTx := by
  rw [h.entry c (ne_of_linked hs hc)]

lemma rank_tip : rank ctx s' t = rank ctx s t :=
  h.rank_of_ne (ne_of_linked hs (hs.chain t (hs.tree.self_mem t)).1)

lemma tip : s'.tip = some t := by
  unfold ChainState.tip
  rw [h.chain]
  exact hs.active.tip hs.tree

omit h in
lemma waiting (hc : c ∈ s.unlinkedBehind b) :
    c ∈ s.mapBlockIndex ∧ (s.entry c).nTx ≠ 0 ∧ (s.entry c).nChainTx = 0 ∧ (s.entry c).pprev = some b := by
  obtain ⟨hmem, hdata, q, hq, hq', hzero⟩ := hs.unlinked_pair _ (mem_unlinkedBehind.mp hc)
  obtain rfl := Option.some.inj hq
  refine ⟨hmem, hdata, ?_, hq'⟩
  by_contra hlinked
  exact hs.nChainTx_parent c hmem hlinked b hq' hzero

omit h in
lemma queue_nodup : (queue ++ s.unlinkedBehind b).Nodup := by
  rw [nodup_append]
  refine ⟨(nodup_cons.mp hs.queue_nodup).2, ?_, ?_⟩
  · unfold unlinkedBehind
    apply List.Nodup.map_on _ (hs.unlinked_nodup.filter _)
    intro q hq q' hq' heq
    have hq₁ := of_decide_eq_true (mem_filter.mp hq).2
    have hq₂ := of_decide_eq_true (mem_filter.mp hq').2
    exact Prod.ext (hq₁.trans hq₂.symm) heq
  · rintro c hc d hd rfl
    obtain ⟨-, -, -, q, hq, hq'⟩ := hs.queued c (mem_cons_of_mem _ hc)
    obtain ⟨-, -, -, hpprev⟩ := waiting hs hd
    obtain rfl := Option.some.inj (hq.symm.trans hpprev)
    exact hq' (hs.queued q mem_cons_self).2.2.1

include hp

omit h in
lemma parent_linked : (s.entry p).nChainTx ≠ 0 := by
  obtain ⟨-, -, -, p', hp', hparent⟩ := hs.queued b mem_cons_self
  obtain rfl := Option.some.inj (hp.symm.trans hp')
  exact hparent

lemma self_linked : (s'.entry b).nChainTx ≠ 0 := by
  have hparent := parent_linked hs hp
  rw [h.nChainTx]
  omega

/-- What is not linked is another block, and was not linked. -/
lemma unlinked_of_unlinked (hc : (s'.entry c).nChainTx = 0) : c ≠ b ∧ (s.entry c).nChainTx = 0 := by
  have hcb : c ≠ b := by
    rintro rfl
    exact h.self_linked hs hp hc
  rw [h.entry c hcb] at hc
  exact ⟨hcb, hc⟩

lemma linkInv : LinkInv s' := by
  have htree := hs.tree
  have hpmem := htree.parent_mem b p hp
  have hparent := parent_linked hs hp
  constructor
  case complete =>
    intro c hc hlinked
    rw [h.shape.map] at hc
    rw [h.complete_iff]
    by_cases heq : c = b
    · intro a ha
      rw [heq] at ha
      cases (htree.mem_step hp).mp ha with
      | inl hself => rw [hself]; exact (hs.queued b mem_cons_self).2.1
      | inr hbelow => exact hs.complete p hpmem hparent a hbelow
    · rw [h.entry c heq] at hlinked
      exact hs.complete c hc hlinked
  case nChainTx_sum =>
    intro c hc hlinked
    rw [h.shape.map] at hc
    simp only [h.shape.lineage, h.nTx_eq]
    by_cases heq : c = b
    · rw [heq, h.nChainTx, htree.lineage_step hp, map_cons, sum_cons, hs.nChainTx_sum p hpmem hparent,
        add_comm]
    · rw [h.entry c heq] at hlinked ⊢
      exact hs.nChainTx_sum c hc hlinked
  case nChainTx_parent =>
    intro c hc hlinked q hq
    rw [h.shape.map] at hc
    rw [h.shape.pprev] at hq
    by_cases heq : c = b
    · rw [heq] at hq
      obtain rfl := Option.some.inj (hp.symm.trans hq)
      rw [h.nChainTx_of_linked hs hparent]
      exact hparent
    · rw [h.entry c heq] at hlinked
      have hq' := hs.nChainTx_parent c hc hlinked q hq
      rw [h.nChainTx_of_linked hs hq']
      exact hq'

/-- Those that waited for the block come to the end of the queue. -/
lemma waitInv : WaitInv s' (queue ++ s.unlinkedBehind b) := by
  constructor
  case queued =>
    intro c hc
    rw [h.shape.map, h.nTx_eq, h.shape.pprev]
    cases mem_append.mp hc with
    | inl hin =>
      obtain ⟨hmem, hdata, hzero, q, hq, hq'⟩ := hs.queued c (mem_cons_of_mem _ hin)
      have hcb : c ≠ b := by
        rintro rfl
        exact (nodup_cons.mp hs.queue_nodup).1 hin
      rw [h.entry c hcb]
      refine ⟨hmem, hdata, hzero, q, hq, ?_⟩
      rw [h.nChainTx_of_linked hs hq']
      exact hq'
    | inr hin =>
      obtain ⟨hmem, hdata, hzero, hq⟩ := waiting hs hin
      have hcb : c ≠ b := by
        rintro rfl
        have hheight := hs.tree.leveled.step c c hq
        omega
      rw [h.entry c hcb]
      exact ⟨hmem, hdata, hzero, b, hq, h.self_linked hs hp⟩
  case queue_nodup => exact queue_nodup hs
  case unlinked =>
    intro c hc hdata hzero' hqueue hok
    rw [h.shape.map] at hc
    rw [h.nTx_eq] at hdata
    obtain ⟨hcb, hzero'⟩ := h.unlinked_of_unlinked hs hp hzero'
    rw [mem_append, not_or] at hqueue
    have hok' : s.NoneInvalid c := by
      intro a ha
      rw [← h.nStatus_eq]
      exact hok a (by rwa [h.shape.lineage])
    have hpair := hs.unlinked c hc hdata hzero' (fun hmem => (mem_cons.mp hmem).elim hcb hqueue.1) hok'
    rw [h.shape.pprev, h.unlinked, mem_filter, decide_eq_true_eq]
    refine ⟨hpair, fun heq => hqueue.2 ?_⟩
    rw [mem_unlinkedBehind, ← heq]
    exact hpair
  case unlinked_pair =>
    intro q hq
    rw [h.unlinked, mem_filter, decide_eq_true_eq] at hq
    obtain ⟨hmem, hdata, r, hr, hr', hzero'⟩ := hs.unlinked_pair q hq.1
    rw [h.shape.map, h.nTx_eq, h.shape.pprev]
    refine ⟨hmem, hdata, r, hr, hr', ?_⟩
    rw [h.entry r]
    · exact hzero'
    · rintro rfl
      exact hq.2 hr
  case unlinked_nodup =>
    rw [h.unlinked]
    exact hs.unlinked_nodup.filter _

lemma candidateInv : CandidateInv ctx s' t := by
  constructor
  case candidate =>
    intro c hc hlinked hclean hle
    rw [h.shape.map] at hc
    rw [h.candidates]
    by_cases heq : c = b
    · right
      refine ⟨heq, ?_⟩
      rw [← Bool.not_eq_true, worseThanTip_iff (h.tip hs), not_lt, ← heq]
      exact hle
    · left
      rw [h.entry c heq] at hlinked
      rw [h.rank_tip hs, h.rank_of_ne heq] at hle
      refine hs.candidate c hc hlinked (fun a ha => ?_) hle
      rw [← h.nStatus_eq]
      exact hclean a (by rwa [h.shape.lineage])
  case candidates =>
    intro c hc
    rw [h.shape.map]
    rw [h.candidates] at hc
    cases hc with
    | inl hin =>
      obtain ⟨hmem, hlinked, hle⟩ := hs.candidates c hin
      rw [h.nChainTx_of_linked hs hlinked, h.rank_tip hs, h.rank_of_ne (ne_of_linked hs hlinked)]
      exact ⟨hmem, hlinked, hle⟩
    | inr hnew =>
      obtain ⟨rfl, hworse⟩ := hnew
      rw [← Bool.not_eq_true, worseThanTip_iff (h.tip hs), not_lt] at hworse
      exact ⟨(hs.queued c mem_cons_self).1, h.self_linked hs hp, hworse⟩

/-- The block is linked, and those that waited for it come to the end of the queue. -/
theorem inv : BlockIndexInv ctx s' t (queue ++ s.unlinkedBehind b) := by
  constructor
  case toLinkInv => exact h.linkInv hs hp
  case toWaitInv => exact h.waitInv hs hp
  case toCandidateInv => exact h.candidateInv hs hp
  case tree => exact h.shape.tree hs.tree
  case active => exact ⟨by rw [h.chain, h.shape.lineage, hs.active.chain], by rw [h.shape.map]; exact hs.active.mem⟩
  case genesis =>
    rw [h.shape.map, h.shape.pprev]
    exact hs.genesis
  case chain =>
    intro a ha
    rw [h.shape.lineage] at ha
    obtain ⟨hlinked, hvalid, hok⟩ := hs.chain a ha
    rw [h.nChainTx_of_linked hs hlinked, h.nStatus_eq]
    exact ⟨hlinked, hvalid, hok⟩
  case haveData =>
    intro c hc
    rw [h.shape.map] at hc
    rw [h.nStatus_eq, h.nTx_eq]
    exact hs.haveData c hc
  case explained =>
    intro c hc hfailed
    rw [h.shape.map] at hc
    rw [h.nStatus_eq] at hfailed
    simp only [h.shape.lineage, h.nStatus_eq]
    exact hs.explained c hc hfailed
  case validity =>
    intro c hc
    rw [h.shape.map] at hc
    rw [h.nStatus_eq, h.nTx_eq]
    exact hs.validity c hc
  case nSequenceId =>
    intro c hc hzero'
    rw [h.shape.map] at hc
    obtain ⟨hcb, hzero'⟩ := h.unlinked_of_unlinked hs hp hzero'
    rw [h.entry c hcb]
    exact hs.nSequenceId c hc hzero'
  case reverseSequenceId =>
    rw [h.reverseSequenceId]
    exact hs.reverseSequenceId

end Inv

end LinkedOn

lemma linkBlocks_cons (fuel : ℕ) (b : Uint256) (queue : List Uint256) (s : ChainState) :
    linkBlocks ctx (fuel + 1) (b :: queue) s =
      linkBlocks ctx fuel (queue ++ s.unlinkedBehind b) (linkStep ctx s b) := by
  change linkBlocks ctx fuel (queue ++ (linkBlock ctx s b).unlinkedBehind b)
    { linkBlock ctx s b with
      mapBlocksUnlinked := (linkBlock ctx s b).mapBlocksUnlinked.filter (fun q => q.1 ≠ some b) } = _
  unfold linkStep unlinkedBehind
  rw [linkBlock_unlinked]

/-- What each iteration keeps holds when the queue is empty. -/
theorem linkBlocks_rule {P : ChainState → List Uint256 → Prop} {fuel : ℕ}
    (hP : ∀ s b queue, P s (b :: queue) → P (linkStep ctx s b) (queue ++ s.unlinkedBehind b)) (hs : P s queue)
    (hfuel : queue.length + s.mapBlocksUnlinked.length ≤ fuel) :
    ∃ s', linkBlocks ctx fuel queue s = .ok s' ∧ P s' [] := by
  induction fuel generalizing s queue with
  | zero =>
    have hnil : queue = [] := length_eq_zero_iff.mp (by omega)
    rw [hnil] at hs ⊢
    exact ⟨s, rfl, hs⟩
  | succ fuel ih =>
    cases queue with
    | nil => exact ⟨s, rfl, hs⟩
    | cons b queue =>
      have hstep := hP s b queue hs
      rw [linkBlocks_cons]
      apply ih hstep
      have hcount : (s.mapBlocksUnlinked.filter (fun q => q.1 = some b)).length +
          (s.mapBlocksUnlinked.filter (fun q => q.1 ≠ some b)).length = s.mapBlocksUnlinked.length := by
        simp only [ne_eq, decide_not]
        exact (length_eq_length_filter_add (fun q : Option Uint256 × Uint256 => decide (q.1 = some b))).symm
      unfold linkStep unlinkedBehind
      rw [length_append, length_map]
      rw [length_cons] at hfuel
      dsimp only
      omega

end Link

end ChainState

end MutableBitcoin
