import MutableBitcoin.BlockArrival
import MutableBitcoin.ConnectBlock
import MutableBitcoin.ChainSelection

/-!
# Runs of the block index

Headers and blocks come in any order, and the best chain is activated in between. The calls do not fail,
and the invariants hold behind each of them.
-/

namespace MutableBitcoin
open Lib List Function

namespace ChainState

variable {ctx : ChainContext} {s s' : ChainState} {b c p t hash prev x : Uint256} {queue : List Uint256}
  {sha256 : Bytes → Uint256}

section Stranded

/-- Every block that is not linked waits for a block without transactions. -/
structure NeverStranded (s : ChainState) (queue : List Uint256) : Prop where
  failed : ∀ b ∈ s.mapBlockIndex, (s.entry b).nStatus.failed = true → (s.entry b).nChainTx = 0 → (s.entry b).nTx = 0
  waits : ∀ b ∈ s.mapBlockIndex, (s.entry b).nTx ≠ 0 → (s.entry b).nChainTx = 0 → b ∉ queue →
    ((s.entry b).pprev, b) ∈ s.mapBlocksUnlinked ∨
      ∃ p, (s.entry b).pprev = some p ∧ (s.entry p).nTx = 0 ∧ (s.entry p).nStatus.failed = true

/-- A block is linked exactly if it and all its ancestors have transactions. -/
theorem NeverStranded.nChainTx_iff (h : NeverStranded s []) (hs : BlockIndexInv ctx s t []) (hb : b ∈ s.mapBlockIndex) :
    (s.entry b).nChainTx ≠ 0 ↔ s.Complete b := by
  refine ⟨hs.complete b hb, ?_⟩
  induction b using hs.tree.leveled.induction with
  | hroot b hp =>
    intro _
    have hgenesis := hs.genesis_mem hb
    rw [hs.tree.lineage_root hp, mem_singleton] at hgenesis
    rw [← hgenesis]
    exact (hs.chain _ (hs.genesis_mem hs.active.mem)).1
  | hstep b p hp ih =>
    intro hcomplete hzero
    have hmem : p ∈ s.lineage b := (hs.tree.mem_step hp).mpr (Or.inr (hs.tree.self_mem p))
    have hlinked := ih (hs.tree.parent_mem b p hp) (hcomplete.of_lineage hs.tree hmem)
    cases h.waits b hb (hcomplete b (hs.tree.self_mem b)) hzero not_mem_nil with
    | inl hpair =>
      obtain ⟨-, -, q, -, hq, hzero'⟩ := hs.unlinked_pair _ hpair
      obtain rfl := Option.some.inj (hp.symm.trans hq)
      exact hlinked hzero'
    | inr hparent =>
      obtain ⟨q, hq, hdata, -⟩ := hparent
      obtain rfl := Option.some.inj (hp.symm.trans hq)
      exact hcomplete p hmem hdata

lemma Added.neverStranded (h : Added s s' hash prev) (hs : Tree s) (hn : NeverStranded s []) : NeverStranded s' [] where
  failed b hb hfailed hzero := by
    rw [h.map] at hb
    cases mem_cons.mp hb with
    | inl heq => rw [heq, h.nTx]
    | inr hb =>
      rw [h.entry_of_mem hb] at hfailed hzero ⊢
      exact hn.failed b hb hfailed hzero
  waits b hb hdata hzero hqueue := by
    rw [h.map] at hb
    cases mem_cons.mp hb with
    | inl heq => rw [heq, h.nTx] at hdata; exact absurd rfl hdata
    | inr hb =>
      rw [h.entry_of_mem hb] at hdata hzero ⊢
      rw [h.unlinked]
      apply (hn.waits b hb hdata hzero hqueue).imp_right
      rintro ⟨p, hp, hnone, hfailed⟩
      refine ⟨p, hp, ?_⟩
      rw [h.entry_of_mem (hs.parent_mem b p hp)]
      exact ⟨hnone, hfailed⟩

lemma NeverStranded.mark (hn : NeverStranded s []) (hdata : (s.entry b).nTx = 0) :
    NeverStranded (s.modifyStatus b (fun st => { st with failedValid := true })) [] := by
  have hframe : Frame s (s.modifyStatus b (fun st => { st with failedValid := true })) :=
    frame_modifyStatus b (fun _ => rfl) (fun _ => rfl)
  constructor
  case failed =>
    intro c hc hfailed hzero
    rw [hframe.toSameTree.nTx]
    rw [hframe.toSameTree.nChainTx] at hzero
    cases failed_mark_iff.mp hfailed with
    | inl heq => rw [heq, hdata]
    | inr hold => exact hn.failed c hc hold hzero
  case waits =>
    intro c hc hdata' hzero hqueue
    rw [hframe.toSameTree.nTx] at hdata'
    rw [hframe.toSameTree.nChainTx] at hzero
    rw [hframe.toSameTree.pprev, hframe.unlinked]
    apply (hn.waits c hc hdata' hzero hqueue).imp_right
    rintro ⟨p, hp, hnone, hfailed⟩
    refine ⟨p, hp, ?_, failed_mark_iff.mpr (Or.inr hfailed)⟩
    rw [hframe.toSameTree.nTx, hnone]

lemma Received.neverStranded (h : Received s s' b) (hn : NeverStranded s []) (hok : (s.entry b).nStatus.failed = false)
    (hunlinked : (s.entry b).nChainTx = 0) (hkept : ∀ q ∈ s.mapBlocksUnlinked, q ∈ s'.mapBlocksUnlinked)
    (hwaits : b ∉ queue → ((s.entry b).pprev, b) ∈ s'.mapBlocksUnlinked ∨
      ∃ p, (s.entry b).pprev = some p ∧ (s.entry p).nTx = 0 ∧ (s.entry p).nStatus.failed = true) :
    NeverStranded s' queue := by
  have hparent : ∀ {p}, (s.entry p).nTx = 0 ∧ (s.entry p).nStatus.failed = true →
      (s'.entry p).nTx = 0 ∧ (s'.entry p).nStatus.failed = true := by
    rintro p ⟨hnone, hfailed⟩
    rw [h.entry p]
    · exact ⟨hnone, hfailed⟩
    · rintro rfl
      rw [hok] at hfailed
      cases hfailed
  constructor
  case failed =>
    intro c hc hfailed hzero
    rw [h.shape.map] at hc
    by_cases heq : c = b
    · rw [heq, h.failed, hok] at hfailed
      cases hfailed
    · rw [h.entry c heq] at hfailed hzero ⊢
      exact hn.failed c hc hfailed hzero
  case waits =>
    intro c hc hdata hzero hqueue
    rw [h.shape.map] at hc
    rw [h.shape.pprev]
    by_cases heq : c = b
    · rw [heq] at hqueue ⊢
      apply (hwaits hqueue).imp_right
      rintro ⟨p, hp, hfailed⟩
      exact ⟨p, hp, hparent hfailed⟩
    · rw [h.entry c heq] at hdata hzero
      cases hn.waits c hc hdata hzero not_mem_nil with
      | inl hpair => exact Or.inl (hkept _ hpair)
      | inr hfailed =>
        obtain ⟨p, hp, hfailed⟩ := hfailed
        exact Or.inr ⟨p, hp, hparent hfailed⟩

lemma LinkedOn.neverStranded (h : LinkedOn ctx s s' b p) (hn : NeverStranded s (b :: queue))
    (hdata : (s.entry b).nTx ≠ 0) : NeverStranded s' (queue ++ s.unlinkedBehind b) := by
  have hstill : ∀ {c}, (s'.entry c).nChainTx = 0 → c ≠ b ∧ (s.entry c).nChainTx = 0 := by
    intro c hc
    have hcb : c ≠ b := by
      rintro rfl
      rw [h.nChainTx] at hc
      omega
    rw [h.entry c hcb] at hc
    exact ⟨hcb, hc⟩
  constructor
  case failed =>
    intro c hc hfailed hzero
    rw [h.shape.map] at hc
    rw [h.nStatus_eq] at hfailed
    rw [h.nTx_eq]
    exact hn.failed c hc hfailed (hstill hzero).2
  case waits =>
    intro c hc hdata hzero hqueue
    rw [h.shape.map] at hc
    rw [h.nTx_eq] at hdata
    obtain ⟨hcb, hzero⟩ := hstill hzero
    rw [mem_append, not_or] at hqueue
    rw [h.shape.pprev, h.unlinked, mem_filter, decide_eq_true_eq]
    cases hn.waits c hc hdata hzero (fun hmem => (mem_cons.mp hmem).elim hcb hqueue.1) with
    | inl hpair =>
      refine Or.inl ⟨hpair, fun heq => hqueue.2 ?_⟩
      have hprev : (s.entry c).pprev = some b := heq
      rw [hprev] at hpair
      exact mem_map.mpr ⟨_, mem_filter.mpr ⟨hpair, decide_eq_true rfl⟩, rfl⟩
    | inr hparent =>
      obtain ⟨q, hq, hnone, hfailed⟩ := hparent
      refine Or.inr ⟨q, hq, ?_, ?_⟩
      · rw [h.nTx_eq, hnone]
      · rw [h.nStatus_eq, hfailed]

lemma Selected.neverStranded (h : Selected ctx s s' x) (hn : NeverStranded s []) : NeverStranded s' [] where
  failed b hb hfailed hzero := by
    rw [h.map] at hb
    rw [h.nChainTx] at hzero
    rw [h.nTx]
    cases h.failed_new b hfailed with
    | inl hold => exact hn.failed b hb hold hzero
    | inr hlinked => exact absurd hzero hlinked
  waits b hb hdata hzero hqueue := by
    rw [h.map] at hb
    rw [h.nTx] at hdata
    rw [h.nChainTx] at hzero
    rw [h.pprev, h.unlinked]
    apply (hn.waits b hb hdata hzero hqueue).imp_right
    rintro ⟨p, hp, hnone, hfailed⟩
    refine ⟨p, hp, ?_, h.failed_mono p hfailed⟩
    rw [h.nTx, hnone]

end Stranded

section Accept

/-- The invariants, and under `N` no block is stranded. -/
def SettledIf (ctx : ChainContext) (N : Prop) (s : ChainState) (t : Uint256) (queue : List Uint256) : Prop :=
  BlockIndexInv ctx s t queue ∧ (N → NeverStranded s queue)

lemma received_modifyEntry (b : Uint256) {nTx : ℕ} (hn : nTx ≠ 0) (nFile nPos : ℕ) (fWitness : Bool) :
    Received s (s.modifyEntry b (withTransactions nTx nFile nPos fWitness)) b := by
  unfold modifyEntry withTransactions
  constructor
  case entry => exact fun c hc => update_of_ne hc _ _
  case shape =>
    constructor
    case map => rfl
    all_goals
      intro c
      dsimp only
      by_cases hc : c = b
      · rw [hc, update_self]
      · rw [update_of_ne hc]
  case validity =>
    intro hok
    dsimp only
    rw [update_self]
    have hle := BlockStatus.le_raiseValidity
      { (s.entry b).nStatus with
        haveData := true
        optWitness := (s.entry b).nStatus.optWitness || fWitness } BLOCK_VALID_TRANSACTIONS
    refine ⟨hle, ?_⟩
    unfold BlockStatus.raiseValidity BlockStatus.failed at hle ⊢
    unfold BlockStatus.failed at hok
    dsimp only at hle ⊢
    rw [hok]
    split_ifs with hlt
    · exact le_rfl
    · simpa using hlt
  case chain => rfl
  case candidates => rfl
  case reverseSequenceId => rfl
  case nTx => simpa using hn
  all_goals simp

/-- The data of a block that is not failed comes in. -/
theorem receivedBlockTransactions_spec {N : Prop} {nTx nFile nPos : ℕ} {fWitness : Bool}
    (hs : SettledIf ctx N s t []) (hb : b ∈ s.mapBlockIndex) (hzero : (s.entry b).nTx = 0)
    (hok : (s.entry b).nStatus.failed = false) (hn : nTx ≠ 0) :
    ∃ s', receivedBlockTransactions ctx s nTx b nFile nPos fWitness = .ok s' ∧ SettledIf ctx N s' t [] := by
  obtain ⟨hinv, hstranded⟩ := hs
  obtain ⟨p, hp⟩ : ∃ p, (s.entry b).pprev = some p := by
    rw [← Option.ne_none_iff_exists']
    intro hnone
    have hgenesis := hinv.genesis_mem hb
    rw [hinv.tree.lineage_root hnone, mem_singleton] at hgenesis
    rw [← hgenesis] at hzero
    exact hinv.nTx_chain (hinv.genesis_mem hinv.active.mem) hzero
  have hunlinked : (s.entry b).nChainTx = 0 := by
    by_contra hlinked
    exact hinv.complete b hb hlinked b (hinv.tree.self_mem b) hzero
  have hpb : p ≠ b := by
    rintro rfl
    have hheight := hinv.tree.leveled.step p p hp
    omega
  have hpmem := hinv.tree.parent_mem b p hp
  have hreceived := received_modifyEntry b hn nFile nPos fWitness (s := s)
  let s₁ := s.modifyEntry b (withTransactions nTx nFile nPos fWitness)
  have hp₁ : (s₁.entry b).pprev = some p := (hreceived.shape.pprev b).trans hp
  rw [receivedBlockTransactions_some rfl hp₁]
  rw [show s₁.entry p = s.entry p from hreceived.entry p hpb]
  by_cases hlinked : (s.entry p).nChainTx ≠ 0
  · -- the block is linked, and then those behind it
    rw [if_pos hlinked]
    have hstart : SettledIf ctx N s₁ t [b] := by
      constructor
      · apply hreceived.inv hinv hb hzero hok
        apply hreceived.waitInv hinv hb hzero
        · rintro c hc
          exact ⟨mem_singleton.mp hc, p, hp, hlinked⟩
        · exact nodup_singleton b
        · exact fun hnot => absurd (mem_singleton_self b) hnot
        · exact fun q hq => hq
        · exact fun q hq => Or.inl hq
        · exact hinv.unlinked_nodup
      · intro hN
        apply hreceived.neverStranded (hstranded hN) hok hunlinked (fun q hq => hq)
        exact fun hnot => absurd (mem_singleton_self b) hnot
    refine linkBlocks_rule (P := fun s queue => SettledIf ctx N s t queue) ?_ hstart ?_
    · rintro s c queue ⟨hinv, hstranded⟩
      obtain ⟨-, hdata, -, q, hq, -⟩ := hinv.queued c mem_cons_self
      have hlink : LinkedOn ctx s (linkStep ctx s c) c q := linkedOn_linkStep hq
      exact ⟨hlink.inv hinv hq, fun hN => hlink.neverStranded (hstranded hN) hdata⟩
    · rw [length_singleton, add_comm]
  · rw [if_neg hlinked]
    rw [not_not] at hlinked
    have hnotMem : (some p, b) ∉ s.mapBlocksUnlinked := by
      intro hmem
      exact (hinv.unlinked_pair _ hmem).2.1 hzero
    by_cases hvalid : (s.entry p).nStatus.isValid BLOCK_VALID_TREE = true
    · -- the block waits for its parent
      rw [if_pos hvalid]
      let s₂ : ChainState := { s₁ with mapBlocksUnlinked := s₁.mapBlocksUnlinked ++ [(some p, b)] }
      have hreceived₂ : Received s s₂ b :=
        { hreceived with shape := ⟨hreceived.shape.map, hreceived.shape.pprev, hreceived.shape.nHeight,
            hreceived.shape.nChainWork⟩ }
      have hkept : ∀ q ∈ s.mapBlocksUnlinked, q ∈ s₂.mapBlocksUnlinked :=
        fun q hq => mem_append_left _ hq
      have hwaits : ((s.entry b).pprev, b) ∈ s₂.mapBlocksUnlinked := by
        rw [hp]
        exact mem_append_right _ (mem_singleton_self _)
      refine ⟨s₂, rfl, ?_, fun hN => ?_⟩
      · apply hreceived₂.inv hinv hb hzero hok
        apply hreceived₂.waitInv hinv hb hzero (fun c hc => absurd hc not_mem_nil) nodup_nil
          (fun _ _ => hwaits) hkept
        · intro q hq
          apply (mem_append.mp hq).imp_right
          intro heq
          rw [mem_singleton.mp heq]
          exact ⟨rfl, p, rfl, hp, hlinked⟩
        · exact hinv.unlinked_nodup.append (nodup_singleton _)
            (disjoint_singleton.mpr hnotMem)
      · exact hreceived₂.neverStranded (hstranded hN) hok hunlinked hkept (fun _ => Or.inl hwaits)
    · -- its parent is failed
      rw [if_neg hvalid]
      have hfailed : (s.entry p).nStatus.failed = true := by
        by_contra hnot
        apply hvalid
        unfold BlockStatus.isValid
        rw [Bool.not_eq_true] at hnot
        rw [hnot]
        exact decide_eq_true (hinv.validity p hpmem).1
      refine ⟨s₁, rfl, ?_, fun hN => ?_⟩
      · apply hreceived.inv hinv hb hzero hok
        apply hreceived.waitInv hinv hb hzero (fun c hc => absurd hc not_mem_nil) nodup_nil _
          (fun q hq => hq) (fun q hq => Or.inl hq) hinv.unlinked_nodup
        intro _ hnone
        have hmem : p ∈ s.lineage b := (hinv.tree.mem_step hp).mpr (Or.inr (hinv.tree.self_mem p))
        have hclean := hinv.failed_of_noneInvalid hpmem (hnone.of_lineage hinv.tree hmem)
        rw [hfailed] at hclean
        cases hclean
      · apply hreceived.neverStranded (hstranded hN) hok hunlinked (fun q hq => hq)
        exact fun _ => Or.inr ⟨p, hp, (hstranded hN).failed p hpmem hfailed hlinked, hfailed⟩

/-- The flag `fChecked` of a block was set by a check that passed. -/
def FlagEarned (params : ConsensusParams) (block : CBlock sha256) : Prop :=
  block.fChecked = true → ∃ block', checkBlock { block with fChecked := false } params true true = .ok block'

lemma vtx_ne_nil_of_checkBlock {block block' : CBlock sha256} {params : ConsensusParams}
    (hflag : FlagEarned params block) (h : checkBlock block params true true = .ok block') :
    block.vtx.length ≠ 0 := by
  obtain ⟨block'', hrun⟩ : ∃ block'', checkBlock { block with fChecked := false } params true true = .ok block'' := by
    cases hchecked : block.fChecked with
    | true => exact hflag hchecked
    | false =>
      refine ⟨block', ?_⟩
      rw [← hchecked]
      exact h
  unfold checkBlock at hrun
  rw [if_neg Bool.false_ne_true] at hrun
  simp only [unit_bind_eq_ok_iff, rejectIf_eq_ok_iff] at hrun
  obtain ⟨-, -, hlength, -⟩ := hrun
  rw [Bool.or_eq_false_iff, Bool.or_eq_false_iff] at hlength
  intro hnil
  rw [length_eq_zero_iff] at hnil
  rw [hnil] at hlength
  cases hlength.1.1

theorem acceptBlockHeader_spec (sha256 : Bytes → Uint256) {N : Prop} (hs : SettledIf ctx N s t [])
    (block : CBlockHeader) (fContextual : Bool) :
    SettledIf ctx N (acceptBlockHeader ctx sha256 s block fContextual).2 t [] ∧
      ((acceptBlockHeader ctx sha256 s block fContextual).1 = true →
        block.getHash sha256 ∈ (acceptBlockHeader ctx sha256 s block fContextual).2.mapBlockIndex ∧
        ((acceptBlockHeader ctx sha256 s block fContextual).2.entry (block.getHash sha256)).nStatus.failed = false) := by
  obtain ⟨hinv, hstranded⟩ := hs
  have hrefused : SettledIf ctx N s t [] ∧ (false = true → block.getHash sha256 ∈ s.mapBlockIndex ∧
      (s.entry (block.getHash sha256)).nStatus.failed = false) :=
    ⟨⟨hinv, hstranded⟩, fun hno => nomatch hno⟩
  unfold acceptBlockHeader
  dsimp only
  by_cases hgenesis : block.getHash sha256 = ctx.hashGenesisBlock
  · rw [if_pos hgenesis]
    have hmem : block.getHash sha256 ∈ s.mapBlockIndex := by
      rw [hgenesis]
      exact hinv.genesis.1
    have hsame : s.addToBlockIndex (block.getHash sha256) block = s := by
      unfold addToBlockIndex
      rw [if_pos hmem]
    rw [hsame]
    refine ⟨⟨hinv, hstranded⟩, fun _ => ⟨hmem, ?_⟩⟩
    rw [hgenesis]
    exact (hinv.chain _ (hinv.genesis_mem hinv.active.mem)).2.2
  · rw [if_neg hgenesis]
    by_cases hknown : block.getHash sha256 ∈ s.mapBlockIndex
    · rw [if_pos hknown]
      refine ⟨⟨hinv, hstranded⟩, fun hok => ⟨hknown, ?_⟩⟩
      rwa [Bool.not_eq_true'] at hok
    · rw [if_neg hknown]
      by_cases hpow : (!(checkBlockHeader sha256 block ctx.params true).isOk) = true
      · rw [if_pos hpow]
        exact hrefused
      rw [if_neg hpow]
      by_cases hprev : block.hashPrevBlock ∉ s.mapBlockIndex
      · rw [if_pos hprev]
        exact hrefused
      rw [if_neg hprev]
      by_cases hfailed : (s.entry block.hashPrevBlock).nStatus.failed = true
      · rw [if_pos hfailed]
        exact hrefused
      rw [if_neg hfailed]
      by_cases hcontextual : (!fContextual) = true
      · rw [if_pos hcontextual]
        exact hrefused
      rw [if_neg hcontextual]
      rw [Bool.not_eq_true', Bool.not_eq_false] at hpow
      rw [not_not] at hprev
      have hadded := added_addToBlockIndex hknown hprev (getBlockProof_pos hpow)
      refine ⟨⟨hadded.inv hinv, fun hN => hadded.neverStranded hinv.tree (hstranded hN)⟩, fun _ => ⟨?_, ?_⟩⟩
      · rw [hadded.map]
        exact mem_cons_self
      · rw [hadded.nStatus]
        rfl

/-- The call does not fail, and the invariants hold behind it. -/
theorem acceptBlock_spec {N : Prop} (hs : SettledIf ctx N s t []) (block : CBlock sha256) (args : AcceptArgs)
    (hflag : FlagEarned ctx.params block) :
    ∃ s', acceptBlock ctx s block args = .ok s' ∧ SettledIf ctx N s' t [] := by
  obtain ⟨hheader, haccepted⟩ := acceptBlockHeader_spec sha256 hs block.toCBlockHeader args.fContextualHeader
  unfold acceptBlock
  dsimp only
  generalize acceptBlockHeader ctx sha256 s block.toCBlockHeader args.fContextualHeader = r at hheader haccepted ⊢
  by_cases hrefused : (!r.1) = true
  · rw [if_pos hrefused]
    exact ⟨r.2, rfl, hheader⟩
  rw [if_neg hrefused]
  by_cases hunwanted : (!r.2.wanted (block.toCBlockHeader.getHash sha256) args.fRequested) = true
  · rw [if_pos hunwanted]
    exact ⟨r.2, rfl, hheader⟩
  rw [if_neg hunwanted]
  rw [Bool.not_eq_true', Bool.not_eq_false] at hrefused hunwanted
  obtain ⟨hmem, hok⟩ := haccepted hrefused
  have hzero : (r.2.entry (block.toCBlockHeader.getHash sha256)).nTx = 0 := by
    by_contra hdata
    unfold wanted at hunwanted
    dsimp only at hunwanted
    rw [(hheader.1.haveData _ hmem).mpr hdata] at hunwanted
    cases hunwanted
  cases hcheck : checkBlock block ctx.params true true >>= fun _ => args.contextualCheckBlock with
  | error reject =>
    dsimp only
    cases reject.corruptionPossible with
    | true => exact ⟨r.2, rfl, hheader⟩
    | false => exact ⟨_, rfl, hheader.1.mark hmem hzero, fun hN => (hheader.2 hN).mark hzero⟩
  | ok u =>
    obtain ⟨block', hblock, -⟩ := bind_eq_ok_iff.mp hcheck
    exact receivedBlockTransactions_spec hheader hmem hzero hok (vtx_ne_nil_of_checkBlock hflag hblock)

end Accept

end ChainState

end MutableBitcoin
