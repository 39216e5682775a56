import MutableBitcoin.ActivationRun

/-!
# The invariants of the block index

What `CheckBlockIndex` asserts, as one structure over the four parts of the state: the entries, the active
chain, the candidates and the blocks that wait for an ancestor.
-/

namespace MutableBitcoin
open Lib List

namespace ChainState

variable {ctx : ChainContext} {s s' : ChainState} {a b c t x : Uint256}

/-- All blocks of the branch have their transactions. -/
def Complete (s : ChainState) (b : Uint256) : Prop := ∀ a ∈ s.lineage b, (s.entry a).nTx ≠ 0

/-- No block of the branch is marked as failed. -/
def Clean (s : ChainState) (b : Uint256) : Prop := ∀ a ∈ s.lineage b, (s.entry a).nStatus.failed = false

/-- No block of the branch is marked as invalid itself. -/
def NoneInvalid (s : ChainState) (b : Uint256) : Prop :=
  ∀ a ∈ s.lineage b, (s.entry a).nStatus.failedValid = false

instance (s : ChainState) (b : Uint256) : Decidable (s.Complete b) := inferInstanceAs (Decidable (∀ _ ∈ _, _))

instance (s : ChainState) (b : Uint256) : Decidable (s.Clean b) := inferInstanceAs (Decidable (∀ _ ∈ _, _))

instance (s : ChainState) (b : Uint256) : Decidable (s.NoneInvalid b) := inferInstanceAs (Decidable (∀ _ ∈ _, _))

/-- A failed block stands on an invalid one. -/
def Explained (s : ChainState) : Prop :=
  ∀ b ∈ s.mapBlockIndex, (s.entry b).nStatus.failed = true →
    ∃ a ∈ s.lineage b, (s.entry a).nStatus.failedValid = true

/-- `nChainTx` is set on the blocks whose branch is complete, and counts it. -/
structure LinkInv (s : ChainState) : Prop where
  complete : ∀ b ∈ s.mapBlockIndex, (s.entry b).nChainTx ≠ 0 → s.Complete b
  nChainTx_sum : ∀ b ∈ s.mapBlockIndex, (s.entry b).nChainTx ≠ 0 →
    (s.entry b).nChainTx = ((s.lineage b).map (fun a => (s.entry a).nTx)).sum
  nChainTx_parent : ∀ b ∈ s.mapBlockIndex, (s.entry b).nChainTx ≠ 0 → ∀ p, (s.entry b).pprev = some p →
    (s.entry p).nChainTx ≠ 0

/-- A block with transactions that is not linked waits in `queue`, or for its parent in `mapBlocksUnlinked`. -/
structure WaitInv (s : ChainState) (queue : List Uint256) : Prop where
  queued : ∀ b ∈ queue, b ∈ s.mapBlockIndex ∧ (s.entry b).nTx ≠ 0 ∧ (s.entry b).nChainTx = 0 ∧
    ∃ p, (s.entry b).pprev = some p ∧ (s.entry p).nChainTx ≠ 0
  queue_nodup : queue.Nodup
  unlinked : ∀ b ∈ s.mapBlockIndex, (s.entry b).nTx ≠ 0 → (s.entry b).nChainTx = 0 → b ∉ queue →
    s.NoneInvalid b → ((s.entry b).pprev, b) ∈ s.mapBlocksUnlinked
  unlinked_pair : ∀ q ∈ s.mapBlocksUnlinked, q.2 ∈ s.mapBlockIndex ∧ (s.entry q.2).nTx ≠ 0 ∧
    ∃ p, q.1 = some p ∧ (s.entry q.2).pprev = some p ∧ (s.entry p).nChainTx = 0
  unlinked_nodup : s.mapBlocksUnlinked.Nodup

/-- The candidates are linked and not worse than the tip, and no such block that is clean is missing. -/
structure CandidateInv (ctx : ChainContext) (s : ChainState) (t : Uint256) : Prop where
  candidate : ∀ b ∈ s.mapBlockIndex, (s.entry b).nChainTx ≠ 0 → s.Clean b → rank ctx s t ≤ rank ctx s b →
    b ∈ s.setBlockIndexCandidates
  candidates : ∀ c ∈ s.setBlockIndexCandidates,
    c ∈ s.mapBlockIndex ∧ (s.entry c).nChainTx ≠ 0 ∧ rank ctx s t ≤ rank ctx s c

/-- The invariants, with the tip `t`. The blocks of `queue` have just got all their ancestors, and wait for the
loop that links them. -/
structure BlockIndexInv (ctx : ChainContext) (s : ChainState) (t : Uint256) (queue : List Uint256) : Prop extends
    LinkInv s, WaitInv s queue, CandidateInv ctx s t where
  tree : Tree s
  active : ActiveTip s t
  genesis : ctx.hashGenesisBlock ∈ s.mapBlockIndex ∧ (s.entry ctx.hashGenesisBlock).pprev = none
  /-- The active chain was connected. -/
  chain : ∀ a ∈ s.lineage t,
    (s.entry a).nChainTx ≠ 0 ∧ ctx.connectBlock a = .valid ∧ (s.entry a).nStatus.failed = false
  haveData : ∀ b ∈ s.mapBlockIndex, (s.entry b).nStatus.haveData = true ↔ (s.entry b).nTx ≠ 0
  explained : Explained s
  validity : ∀ b ∈ s.mapBlockIndex, BLOCK_VALID_TREE ≤ (s.entry b).nStatus.validity ∧
    ((s.entry b).nTx ≠ 0 → BLOCK_VALID_TRANSACTIONS ≤ (s.entry b).nStatus.validity)
  nSequenceId : ∀ b ∈ s.mapBlockIndex, (s.entry b).nChainTx = 0 → (s.entry b).nSequenceId ≤ 0
  reverseSequenceId : s.nBlockReverseSequenceId ≤ 0

lemma NoneInvalid.of_lineage (h : s.NoneInvalid b) (hs : Tree s) (ha : a ∈ s.lineage b) : s.NoneInvalid a :=
  fun c hc => h c (hs.trans hc ha)

lemma Complete.of_lineage (h : s.Complete b) (hs : Tree s) (ha : a ∈ s.lineage b) : s.Complete a :=
  fun c hc => h c (hs.trans hc ha)

lemma Clean.noneInvalid (h : s.Clean b) : s.NoneInvalid b := by
  intro a ha
  exact (Bool.or_eq_false_iff.mp (h a ha)).1

namespace BlockIndexInv

section Queue

variable {queue : List Uint256} (h : BlockIndexInv ctx s t queue)

include h

lemma genesis_mem (hb : b ∈ s.mapBlockIndex) : ctx.hashGenesisBlock ∈ s.lineage b := by
  obtain ⟨g, hg⟩ := h.tree.root
  have hroot := hg _ h.genesis.1
  rw [h.tree.lineage_root h.genesis.2, mem_singleton] at hroot
  rw [← hroot]
  exact hg b hb

lemma nTx_chain (ha : a ∈ s.lineage t) : (s.entry a).nTx ≠ 0 :=
  h.complete t h.active.mem (h.chain t (h.tree.self_mem t)).1 a ha

lemma nChainTx_lineage (hb : b ∈ s.mapBlockIndex) (hlinked : (s.entry b).nChainTx ≠ 0) (ha : a ∈ s.lineage b) : (s.entry a).nChainTx ≠ 0 := by
  induction b using h.tree.leveled.induction with
  | hroot b hp =>
    rw [h.tree.lineage_root hp, mem_singleton] at ha
    rwa [ha]
  | hstep b p hp ih =>
    cases (h.tree.mem_step hp).mp ha with
    | inl heq => rwa [heq]
    | inr hmem => exact ih (h.tree.parent_mem b p hp) (h.nChainTx_parent b hb hlinked p hp) hmem

/-- The state is one that the activation can rely on. -/
theorem ready : Ready ctx s t where
  tree := h.tree
  active := h.active
  candidates_mem c hc := (h.candidates c hc).1
  linked c hc a ha := by
    obtain ⟨hc, hlinked, -⟩ := h.candidates c hc
    refine ⟨h.nChainTx_lineage hc hlinked ha, ?_⟩
    rw [h.haveData a (h.tree.mem_of_lineage hc ha)]
    exact h.complete c hc hlinked a ha
  notWorse c hc := (h.candidates c hc).2.2

lemma failed_of_noneInvalid (hb : b ∈ s.mapBlockIndex) (hok : s.NoneInvalid b) :
    (s.entry b).nStatus.failed = false := by
  rw [← Bool.not_eq_true]
  intro hfailed
  obtain ⟨a, ha, hinvalid⟩ := h.explained b hb hfailed
  rw [hok a ha] at hinvalid
  cases hinvalid

end Queue

variable (h : BlockIndexInv ctx s t [])

include h

/-- At rest, a block with all transactions on its way is linked unless a block on it is invalid. -/
theorem nChainTx_of_complete (hb : b ∈ s.mapBlockIndex) (hcomplete : s.Complete b) (hok : s.NoneInvalid b) :
    (s.entry b).nChainTx ≠ 0 := by
  induction b using h.tree.leveled.induction with
  | hroot b hp =>
    intro hzero
    have hpair := h.unlinked b hb (hcomplete b (h.tree.self_mem b)) hzero not_mem_nil hok
    obtain ⟨-, -, p, -, hp', -⟩ := h.unlinked_pair _ hpair
    rw [hp] at hp'
    cases hp'
  | hstep b p hp ih =>
    have hmem : p ∈ s.lineage b := (h.tree.mem_step hp).mpr (Or.inr (h.tree.self_mem p))
    have hlinked := ih (h.tree.parent_mem b p hp) (hcomplete.of_lineage h.tree hmem) (hok.of_lineage h.tree hmem)
    intro hzero
    have hpair := h.unlinked b hb (hcomplete b (h.tree.self_mem b)) hzero not_mem_nil hok
    obtain ⟨-, -, p', -, hp', hzero'⟩ := h.unlinked_pair _ hpair
    obtain rfl := Option.some.inj (hp.symm.trans hp')
    exact hlinked hzero'

end BlockIndexInv

lemma SameTree.complete_iff (h : SameTree s s') : s'.Complete b ↔ s.Complete b := by
  unfold Complete
  simp only [h.lineage, h.nTx]

/-- When flags are set, the tip moves and the candidates are chosen anew, it is enough to look at these. -/
theorem BlockIndexInv.of_frame (hs : BlockIndexInv ctx s t []) (h : Frame s s') (hready : Ready ctx s' x)
    (hchain : ∀ a ∈ s.lineage x,
      (s.entry a).nChainTx ≠ 0 ∧ ctx.connectBlock a = .valid ∧ (s'.entry a).nStatus.failed = false)
    (hmono : ∀ b, (s.entry b).nStatus.failedValid = true → (s'.entry b).nStatus.failedValid = true)
    (hexplained : Explained s')
    (hcandidate : ∀ b ∈ s.mapBlockIndex, (s.entry b).nChainTx ≠ 0 → s'.Clean b → rank ctx s x ≤ rank ctx s b →
      b ∈ s'.setBlockIndexCandidates) : BlockIndexInv ctx s' x [] := by
  have hsame := h.toSameTree
  constructor
  case toLinkInv =>
    constructor
    case complete =>
      intro b hb
      rw [hsame.map] at hb
      rw [hsame.nChainTx, hsame.complete_iff]
      exact hs.complete b hb
    case nChainTx_sum =>
      intro b hb
      rw [hsame.map] at hb
      simp only [hsame.nChainTx, hsame.lineage, hsame.nTx]
      exact hs.nChainTx_sum b hb
    case nChainTx_parent =>
      intro b hb
      rw [hsame.map] at hb
      simp only [hsame.nChainTx, hsame.pprev]
      exact hs.nChainTx_parent b hb
  case toWaitInv =>
    constructor
    case queued => exact fun b hb => absurd hb not_mem_nil
    case queue_nodup => exact nodup_nil
    case unlinked =>
      intro b hb hdata hzero hqueue hok
      rw [hsame.map] at hb
      rw [hsame.nTx] at hdata
      rw [hsame.nChainTx] at hzero
      rw [hsame.pprev, h.unlinked]
      refine hs.unlinked b hb hdata hzero hqueue fun a ha => ?_
      rw [← Bool.not_eq_true]
      intro hinvalid
      have hnot := hok a (by rwa [hsame.lineage])
      rw [hmono a hinvalid] at hnot
      cases hnot
    case unlinked_nodup =>
      rw [h.unlinked]
      exact hs.unlinked_nodup
    case unlinked_pair =>
      intro q hq
      rw [h.unlinked] at hq
      simp only [hsame.map, hsame.nTx, hsame.pprev, hsame.nChainTx]
      exact hs.unlinked_pair q hq
  case toCandidateInv =>
    constructor
    case candidate =>
      intro b hb hlinked hok hle
      rw [hsame.map] at hb
      rw [hsame.nChainTx] at hlinked
      rw [hsame.rank, hsame.rank] at hle
      exact hcandidate b hb hlinked hok hle
    case candidates =>
      exact fun c hc => ⟨hready.candidates_mem c hc, (hready.linked c hc c (hready.tree.self_mem c)).1,
        hready.notWorse c hc⟩
  case tree => exact hready.tree
  case active => exact hready.active
  case explained => exact hexplained
  case genesis =>
    rw [hsame.map, hsame.pprev]
    exact hs.genesis
  case chain =>
    intro a ha
    rw [hsame.lineage] at ha
    rw [hsame.nChainTx]
    exact hchain a ha
  case validity =>
    intro b hb
    rw [hsame.map] at hb
    rw [hsame.nTx]
    obtain ⟨htree, hdata⟩ := hs.validity b hb
    exact ⟨htree.trans (h.validity b), fun hb => (hdata hb).trans (h.validity b)⟩
  case reverseSequenceId =>
    rw [h.reverseSequenceId]
    exact hs.reverseSequenceId
  case haveData =>
    intro b hb
    rw [hsame.map] at hb
    rw [hsame.haveData, hsame.nTx]
    exact hs.haveData b hb
  case nSequenceId =>
    intro b hb
    rw [hsame.map] at hb
    rw [hsame.nChainTx, hsame.nSequenceId]
    exact hs.nSequenceId b hb

lemma forkedIndex_inv : BlockIndexInv (forkedContext .invalid) forkedIndex (blockHash 3) [] := by
  have hready := forkedIndex_ready .invalid
  have hcandidate : ∀ b ∈ forkedIndex.mapBlockIndex,
      workComparator (forkedContext .invalid) forkedIndex b (blockHash 3) = false →
      b ∈ forkedIndex.setBlockIndexCandidates := by
    decide +kernel
  have hlinked : ∀ c ∈ forkedIndex.setBlockIndexCandidates, (forkedIndex.entry c).nChainTx ≠ 0 := by decide
  have hparent : ∀ b ∈ forkedIndex.mapBlockIndex, (forkedIndex.entry b).nChainTx ≠ 0 →
      ∀ p ∈ (forkedIndex.entry b).pprev, (forkedIndex.entry p).nChainTx ≠ 0 := by
    decide +kernel
  constructor
  case toLinkInv =>
    constructor
    case nChainTx_parent => exact hparent
    all_goals decide +kernel
  case toWaitInv =>
    constructor
    case unlinked_pair => exact fun q hq => absurd hq not_mem_nil
    case queued => exact fun b hb => absurd hb not_mem_nil
    all_goals decide +kernel
  case toCandidateInv =>
    constructor
    case candidate => exact fun b hb _ _ hle => hcandidate b hb (workComparator_eq_false_iff.mpr hle)
    case candidates => exact fun c hc => ⟨hready.candidates_mem c hc, hlinked c hc, hready.notWorse c hc⟩
  case tree => exact hready.tree
  case active => exact hready.active
  case explained =>
    unfold Explained
    decide +kernel
  all_goals decide +kernel

end ChainState

end MutableBitcoin
