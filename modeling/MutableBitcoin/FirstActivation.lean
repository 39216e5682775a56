import MutableBitcoin.BlockIndexRuns

/-!
# The first activation

`LoadGenesisBlock` puts the genesis block into an empty index, and the chain stays empty until the
first call of `ActivateBestChain`.
-/

namespace MutableBitcoin
open Lib List Function Bool

namespace ChainState

variable {ctx : ChainContext} {N : Prop} {s s' s₁ : ChainState} {b c t w : Uint256} {queue : List Uint256}
  {sha256 : Bytes → Uint256}

section OnGenesis

def onGenesis (ctx : ChainContext) (s : ChainState) : ChainState := { s with chainActive := [ctx.hashGenesisBlock] }

@[simp] lemma entry_onGenesis : (onGenesis ctx s).entry = s.entry := rfl

@[simp] lemma unlinked_onGenesis : (onGenesis ctx s).mapBlocksUnlinked = s.mapBlocksUnlinked := rfl

/-- The chain is empty, and with the genesis block as its tip all would be settled. -/
structure Unstarted (ctx : ChainContext) (N : Prop) (s : ChainState) : Prop where
  chain : s.chainActive = []
  settled : SettledIf ctx N (onGenesis ctx s) ctx.hashGenesisBlock []

lemma acceptBlockHeader_onGenesis (block : CBlockHeader) (fContextual : Bool) :
    acceptBlockHeader ctx sha256 (onGenesis ctx s) block fContextual =
      ((acceptBlockHeader ctx sha256 s block fContextual).1,
        onGenesis ctx (acceptBlockHeader ctx sha256 s block fContextual).2) := by
  have hadd : ∀ hash, (onGenesis ctx s).addToBlockIndex hash block = onGenesis ctx (s.addToBlockIndex hash block) := by
    intro hash
    unfold addToBlockIndex onGenesis
    split_ifs <;> rfl
  unfold acceptBlockHeader
  dsimp only
  rw [hadd]
  unfold onGenesis
  split_ifs <;> rfl

lemma chainActive_acceptBlockHeader (block : CBlockHeader) (fContextual : Bool) :
    (acceptBlockHeader ctx sha256 s block fContextual).2.chainActive = s.chainActive := by
  unfold acceptBlockHeader addToBlockIndex
  dsimp only
  split_ifs <;> rfl

theorem Unstarted.header (h : Unstarted ctx N s) (sha256 : Bytes → Uint256) (block : CBlockHeader) (fContextual : Bool) :
    Unstarted ctx N (acceptBlockHeader ctx sha256 s block fContextual).2 where
  chain := by rw [chainActive_acceptBlockHeader, h.chain]
  settled := by
    have hspec := (acceptBlockHeader_spec sha256 h.settled block fContextual).1
    rwa [acceptBlockHeader_onGenesis] at hspec

end OnGenesis

section Link

lemma chainActive_linkStep (b : Uint256) : (linkStep ctx s b).chainActive = s.chainActive := by
  unfold linkStep linkBlock
  dsimp only
  split_ifs <;> rfl

lemma nChainWork_linkStep (b c : Uint256) : ((linkStep ctx s b).entry c).nChainWork = (s.entry c).nChainWork := by
  obtain ⟨e, hentry, he⟩ : ∃ e, (linkStep ctx s b).entry = Function.update s.entry b e ∧
      e.nChainWork = (s.entry b).nChainWork := by
    unfold linkStep linkBlock
    dsimp only
    split_ifs <;> exact ⟨_, rfl, rfl⟩
  rw [hentry]
  by_cases hc : c = b
  · rw [hc, update_self, he]
  · rw [update_of_ne hc]

lemma linkStep_onGenesis (hchain : s.chainActive = [])
    (hwork : (s.entry ctx.hashGenesisBlock).nChainWork < (s.entry b).nChainWork) :
    linkStep ctx (onGenesis ctx s) b = onGenesis ctx (linkStep ctx s b) := by
  have hne : b ≠ ctx.hashGenesisBlock := by
    rintro rfl
    omega
  unfold linkStep linkBlock onGenesis
  dsimp only
  rw [if_neg, if_neg]
  · rfl
  · unfold worseThanTip tip modifyEntry
    dsimp only
    rw [hchain]
    exact false_ne_true
  · rw [worseThanTip_iff (t := ctx.hashGenesisBlock) rfl, not_lt]
    apply le_of_lt
    apply rank_lt_of_work_lt
    unfold modifyEntry
    dsimp only
    rw [update_of_ne hne.symm, update_self]
    exact hwork

lemma linkBlocks_onGenesis {fuel : ℕ} (hchain : s.chainActive = [])
    (hqueue : ∀ b ∈ queue, (s.entry ctx.hashGenesisBlock).nChainWork < (s.entry b).nChainWork)
    (hunlinked : ∀ q ∈ s.mapBlocksUnlinked,
      (s.entry ctx.hashGenesisBlock).nChainWork < (s.entry q.2).nChainWork) :
    linkBlocks ctx fuel queue (onGenesis ctx s) = (linkBlocks ctx fuel queue s).map (onGenesis ctx) := by
  induction fuel generalizing s queue with
  | zero => cases queue <;> rfl
  | succ fuel ih =>
    cases queue with
    | nil => rfl
    | cons b queue =>
      rw [forall_mem_cons] at hqueue
      obtain ⟨hb, hrest⟩ := hqueue
      rw [linkBlocks_cons, linkBlocks_cons, linkStep_onGenesis hchain hb]
      apply ih
      · exact (chainActive_linkStep b).trans hchain
      · intro c hc
        rw [nChainWork_linkStep, nChainWork_linkStep]
        cases mem_append.mp hc with
        | inl hin => exact hrest c hin
        | inr hin =>
          obtain ⟨q, hq, rfl⟩ := mem_map.mp hin
          exact hunlinked q (mem_filter.mp hq).1
      · intro q hq
        rw [nChainWork_linkStep, nChainWork_linkStep]
        exact hunlinked q (mem_filter.mp hq).1

lemma receivedBlockTransactions_onGenesis (hchain : s.chainActive = [])
    (hb : (s.entry ctx.hashGenesisBlock).nChainWork < (s.entry b).nChainWork)
    (hunlinked : ∀ q ∈ s.mapBlocksUnlinked,
      (s.entry ctx.hashGenesisBlock).nChainWork < (s.entry q.2).nChainWork) (nTx nFile nPos : ℕ) (fWitness : Bool) :
    receivedBlockTransactions ctx (onGenesis ctx s) nTx b nFile nPos fWitness =
      (receivedBlockTransactions ctx s nTx b nFile nPos fWitness).map (onGenesis ctx) := by
  let s₁ := s.modifyEntry b (withTransactions nTx nFile nPos fWitness)
  have hwork : ∀ c, (s₁.entry c).nChainWork = (s.entry c).nChainWork := by
    intro c
    unfold s₁ modifyEntry
    dsimp only
    by_cases hc : c = b
    · rw [hc, update_self]
      rfl
    · rw [update_of_ne hc]
  have hlink : ∀ fuel, linkBlocks ctx fuel [b] (onGenesis ctx s₁) = (linkBlocks ctx fuel [b] s₁).map (onGenesis ctx) := by
    intro fuel
    apply linkBlocks_onGenesis (s := s₁) hchain
    · intro c hc
      rw [mem_singleton.mp hc, hwork, hwork]
      exact hb
    · intro q hq
      rw [hwork, hwork]
      exact hunlinked q hq
  have hsame : (onGenesis ctx s).modifyEntry b (withTransactions nTx nFile nPos fWitness) = onGenesis ctx s₁ := rfl
  cases hpprev : (s₁.entry b).pprev with
  | none =>
    rw [receivedBlockTransactions_root hsame (by rw [entry_onGenesis, hpprev]), receivedBlockTransactions_root rfl hpprev,
      unlinked_onGenesis]
    exact hlink _
  | some p =>
    rw [receivedBlockTransactions_some hsame (by rw [entry_onGenesis, hpprev]), receivedBlockTransactions_some rfl hpprev]
    simp only [entry_onGenesis, unlinked_onGenesis]
    by_cases hlinked : (s₁.entry p).nChainTx ≠ 0
    · rw [if_pos hlinked]
      change (if (s₁.entry p).nChainTx ≠ 0 then _ else _) = _
      rw [if_pos hlinked]
      exact hlink _
    · rw [if_neg hlinked]
      change (if (s₁.entry p).nChainTx ≠ 0 then _ else _) = _
      rw [if_neg hlinked]
      by_cases hvalid : (s₁.entry p).nStatus.isValid BLOCK_VALID_TREE = true
      · rw [if_pos hvalid]
        change (if (s₁.entry p).nStatus.isValid BLOCK_VALID_TREE = true then _ else _) = _
        rw [if_pos hvalid]
        rfl
      · rw [if_neg hvalid]
        change (if (s₁.entry p).nStatus.isValid BLOCK_VALID_TREE = true then _ else _) = _
        rw [if_neg hvalid]
        rfl

lemma chainActive_linkBlocks {fuel : ℕ} (h : linkBlocks ctx fuel queue s = .ok s') :
    s'.chainActive = s.chainActive := by
  induction fuel generalizing s queue with
  | zero =>
    cases queue with
    | nil => rw [Except.ok.inj h]
    | cons b queue => cases h
  | succ fuel ih =>
    cases queue with
    | nil => rw [Except.ok.inj h]
    | cons b queue =>
      rw [linkBlocks_cons] at h
      exact (ih h).trans (chainActive_linkStep b)

lemma chainActive_receivedBlockTransactions {nTx nFile nPos : ℕ} {fWitness : Bool}
    (h : receivedBlockTransactions ctx s nTx b nFile nPos fWitness = .ok s') : s'.chainActive = s.chainActive := by
  unfold receivedBlockTransactions at h
  dsimp only at h
  have hlink : ∀ {fuel}, linkBlocks ctx fuel [b] (s.modifyEntry b (withTransactions nTx nFile nPos fWitness)) = .ok s' →
      s'.chainActive = s.chainActive := chainActive_linkBlocks
  split at h
  · exact hlink h
  · split_ifs at h
    · exact hlink h
    · rw [← Except.ok.inj h]
      rfl
    · rw [← Except.ok.inj h]
      rfl

lemma chainActive_acceptBlock {block : CBlock sha256} {args : AcceptArgs}
    (h : acceptBlock ctx s block args = .ok s') : s'.chainActive = s.chainActive := by
  have hheader : (acceptBlockHeader ctx sha256 s block.toCBlockHeader args.fContextualHeader).2.chainActive =
      s.chainActive := chainActive_acceptBlockHeader _ _
  unfold acceptBlock at h
  dsimp only at h
  split_ifs at h
  · rw [← Except.ok.inj h, hheader]
  · rw [← Except.ok.inj h, hheader]
  · split at h
    · split_ifs at h
      · rw [← Except.ok.inj h, hheader]
      · rw [← Except.ok.inj h]
        exact hheader
    · rw [chainActive_receivedBlockTransactions h, hheader]

lemma acceptBlock_onGenesis {block : CBlock sha256} {args : AcceptArgs} (hs : Unstarted ctx N s)
    (haccepted : (acceptBlockHeader ctx sha256 s block.toCBlockHeader args.fContextualHeader).1 = true)
    (hwanted : (acceptBlockHeader ctx sha256 s block.toCBlockHeader args.fContextualHeader).2.wanted
      (block.toCBlockHeader.getHash sha256) args.fRequested = true) :
    acceptBlock ctx (onGenesis ctx s) block { args with fRequested := true } =
      (acceptBlock ctx s block args).map (onGenesis ctx) := by
  have hr : Unstarted ctx N _ := hs.header sha256 block.toCBlockHeader args.fContextualHeader
  have hmem := (acceptBlockHeader_spec sha256 hs.settled block.toCBlockHeader args.fContextualHeader).2
  rw [acceptBlockHeader_onGenesis] at hmem
  obtain ⟨hmem, -⟩ := hmem haccepted
  unfold acceptBlock
  dsimp only
  rw [acceptBlockHeader_onGenesis]
  generalize acceptBlockHeader ctx sha256 s block.toCBlockHeader args.fContextualHeader = r at *
  generalize block.toCBlockHeader.getHash sha256 = hash at *
  have hdata : (r.2.entry hash).nStatus.haveData = false := by
    unfold wanted at hwanted
    dsimp only at hwanted
    rw [and_eq_true, not_eq_true'] at hwanted
    exact hwanted.1
  have hwanted' : (onGenesis ctx r.2).wanted hash true = true := by
    unfold wanted
    dsimp only
    rw [entry_onGenesis, hdata]
    rfl
  have hwork : ∀ {b}, b ∈ r.2.mapBlockIndex → b ≠ ctx.hashGenesisBlock →
      (r.2.entry ctx.hashGenesisBlock).nChainWork < (r.2.entry b).nChainWork := by
    intro b hb hne
    have htree := hr.settled.1.tree
    exact htree.leveled.lt_of_mem htree.work (hr.settled.1.genesis_mem hb) hne.symm
  rw [if_neg (by rw [haccepted]; decide), if_neg (by rw [hwanted']; decide), if_neg (by rw [haccepted]; decide),
    if_neg (by rw [hwanted]; decide)]
  cases checkBlock block ctx.params true true >>= fun _ => args.contextualCheckBlock with
  | error reject =>
    dsimp only
    cases reject.corruptionPossible <;> rfl
  | ok u =>
    apply receivedBlockTransactions_onGenesis hr.chain
    · apply hwork hmem
      rintro rfl
      have hinv := hr.settled.1
      have hgenesis := (hinv.haveData _ hinv.genesis.1).mpr (hinv.nTx_chain (hinv.tree.self_mem _))
      rw [entry_onGenesis, hdata] at hgenesis
      cases hgenesis
    · intro q hq
      obtain ⟨hq', -, p, -, hp, -⟩ := hr.settled.1.unlinked_pair q hq
      apply hwork hq'
      intro heq
      rw [heq, hr.settled.1.genesis.2] at hp
      cases hp

theorem Unstarted.block (h : Unstarted ctx N s) (block : CBlock sha256) (args : AcceptArgs)
    (hflag : FlagEarned ctx.params block) :
    ∃ s', acceptBlock ctx s block args = .ok s' ∧ Unstarted ctx N s' := by
  have hheader := h.header sha256 block.toCBlockHeader args.fContextualHeader
  by_cases hrefused : (!(acceptBlockHeader ctx sha256 s block.toCBlockHeader args.fContextualHeader).1) = true
  · refine ⟨_, ?_, hheader⟩
    unfold acceptBlock
    dsimp only
    rw [if_pos hrefused]
  by_cases hunwanted : (!(acceptBlockHeader ctx sha256 s block.toCBlockHeader args.fContextualHeader).2.wanted
      (block.toCBlockHeader.getHash sha256) args.fRequested) = true
  · refine ⟨_, ?_, hheader⟩
    unfold acceptBlock
    dsimp only
    rw [if_neg hrefused, if_pos hunwanted]
  rw [not_eq_true', not_eq_false] at hrefused hunwanted
  obtain ⟨s'', hrun, hsettled⟩ := acceptBlock_spec h.settled block { args with fRequested := true } hflag
  rw [acceptBlock_onGenesis h hrefused hunwanted] at hrun
  cases haccept : acceptBlock ctx s block args with
  | error e =>
    rw [haccept] at hrun
    cases hrun
  | ok s' =>
    rw [haccept] at hrun
    rw [← Except.ok.inj hrun] at hsettled
    exact ⟨s', rfl, (chainActive_acceptBlock haccept).trans h.chain, hsettled⟩

end Link

section Search

/-- The chain is empty, and the genesis block is a root. -/
structure Rooted (ctx : ChainContext) (s : ChainState) : Prop where
  chain : s.chainActive = []
  ready : Ready ctx (onGenesis ctx s) ctx.hashGenesisBlock
  pprev : (s.entry ctx.hashGenesisBlock).pprev = none
  not_failed : (s.entry ctx.hashGenesisBlock).nStatus.failed = false

lemma Unstarted.rooted (h : Unstarted ctx N s) : Rooted ctx s where
  chain := h.chain
  ready := h.settled.1.ready
  pprev := h.settled.1.genesis.2
  not_failed := (h.settled.1.chain _ (h.settled.1.tree.self_mem _)).2.2

lemma dropCandidate_onGenesis (w b : Uint256) :
    (onGenesis ctx s).dropCandidate w b = onGenesis ctx (s.dropCandidate w b) := by
  unfold dropCandidate
  dsimp only
  have hfold : ∀ fFailedChain l, List.foldl (dropFailed fFailedChain) (onGenesis ctx s) l =
      onGenesis ctx (List.foldl (dropFailed fFailedChain) s l) := by
    intro fFailedChain l
    apply foldl_hom (onGenesis ctx)
    intro s b
    cases fFailedChain <;> rfl
  have hlineage : (onGenesis ctx s).lineage w = s.lineage w := rfl
  rw [hlineage, entry_onGenesis, hfold]
  rfl

lemma chainActive_dropCandidate (w b : Uint256) : (s.dropCandidate w b).chainActive = s.chainActive := by
  have hfold : ∀ fFailedChain l s, (List.foldl (dropFailed fFailedChain) s l).chainActive = s.chainActive := by
    intro fFailedChain l
    induction l with
    | nil => exact fun s => rfl
    | cons c l ih =>
      intro s
      rw [foldl_cons, ih]
      cases fFailedChain <;> rfl
  unfold dropCandidate
  exact hfold _ _ _

lemma best_onGenesis (l : List Uint256) : best ctx (onGenesis ctx s) l = best ctx s l := by
  induction l with
  | nil => rfl
  | cons c l ih =>
    unfold best
    rw [ih]
    rfl

namespace Rooted

variable (h : Rooted ctx s)

include h

lemma contains_eq (b : Uint256) : s.contains b = false := by
  unfold contains
  rw [h.chain]
  rfl

lemma offChain_eq_lineage (b : Uint256) : s.offChain b = s.lineage b := by
  unfold offChain
  rw [takeWhile_eq_self_iff]
  intro a _
  rw [h.contains_eq]
  rfl

lemma offChain_eq (hb : b ∈ s.mapBlockIndex) : s.offChain b = (onGenesis ctx s).offChain b ++ [ctx.hashGenesisBlock] := by
  obtain ⟨f, -, hf, -, hcut⟩ := h.ready.active.findFork h.ready.tree hb
  rw [h.ready.tree.lineage_root h.pprev, mem_singleton] at hf
  rw [hf, h.ready.tree.lineage_root h.pprev] at hcut
  rw [h.offChain_eq_lineage]
  exact hcut

lemma dropCandidate (hb : b ∈ (onGenesis ctx s).offChain w) (hw : w ∈ s.setBlockIndexCandidates)
    (hfailed : (s.entry b).nStatus.failed = true) : Rooted ctx (s.dropCandidate w b) := by
  have htree := h.ready.tree
  obtain ⟨f, -, -, -, hcut⟩ := h.ready.active.findFork htree (h.ready.candidates_mem w hw)
  have hmem : b ∈ (onGenesis ctx s).lineage w := by
    rw [hcut]
    exact mem_append_left _ hb
  have hoff : b ∉ (onGenesis ctx s).chainActive := by
    rw [h.ready.active.mem_chainActive_iff]
    exact h.ready.active.notMem_offChain htree hb
  obtain ⟨hdropped, -⟩ :=
    dropped_dropCandidate htree (fun a ha => (h.ready.linked w hw a ha).1) hmem hfailed hoff
  have hready := hdropped.ready h.ready
  rw [dropCandidate_onGenesis] at hdropped hready
  refine ⟨(chainActive_dropCandidate w b).trans h.chain, hready, (hdropped.pprev _).trans h.pprev, ?_⟩
  rw [← not_eq_true]
  intro hnew
  cases hdropped.failed_new hnew with
  | inl hold =>
    rw [entry_onGenesis, h.not_failed] at hold
    cases hold
  | inr hspoiled =>
    obtain ⟨⟨a, ha, -, hnot⟩, -⟩ := hspoiled
    rw [htree.lineage_root h.pprev] at ha
    exact hnot ha

/-- The search comes to the same target as with the genesis block as the tip. -/
theorem findMostWorkFrom_onGenesis (fuel : ℕ) :
    findMostWorkFrom ctx fuel (onGenesis ctx s) =
      (findMostWorkFrom ctx fuel s).map (fun r => (r.1, onGenesis ctx r.2)) := by
  induction fuel generalizing s with
  | zero => rfl
  | succ fuel ih =>
    have hbest : best ctx (onGenesis ctx s) (onGenesis ctx s).setBlockIndexCandidates =
        best ctx s s.setBlockIndexCandidates := best_onGenesis _
    unfold findMostWorkFrom
    rw [hbest]
    cases hw : best ctx s s.setBlockIndexCandidates with
    | none => rfl
    | some w =>
      obtain ⟨hmem, -⟩ := best_spec hw
      have hlinked := h.ready.linked w hmem
      have hsub : ∀ b ∈ s.offChain w, b ∈ (onGenesis ctx s).lineage w := by
        intro b hb
        rwa [h.offChain_eq_lineage] at hb
      have hoff := h.offChain_eq (h.ready.candidates_mem w hmem)
      have hsame : (s.offChain w).find? (fun b => (s.entry b).nStatus.failed) =
          ((onGenesis ctx s).offChain w).find? (fun b => (s.entry b).nStatus.failed) := by
        rw [hoff, find?_append, find?_cons_of_neg (by rw [h.not_failed]; decide)]
        exact Option.or_none
      have hwalk : findUnusable s (s.offChain w) =
          .ok ((s.offChain w).find? (fun b => (s.entry b).nStatus.failed)) :=
        findUnusable_eq (fun b hb => hlinked b (hsub b hb))
      have hwalk' : findUnusable (onGenesis ctx s) ((onGenesis ctx s).offChain w) =
          .ok (((onGenesis ctx s).offChain w).find? (fun b => (s.entry b).nStatus.failed)) := by
        apply findUnusable_eq
        intro b hb
        apply hlinked b (hsub b _)
        rw [hoff]
        exact mem_append_left _ hb
      dsimp only
      rw [hwalk, hwalk', hsame]
      cases hfind : ((onGenesis ctx s).offChain w).find? (fun b => (s.entry b).nStatus.failed) with
      | none => rfl
      | some x =>
        dsimp only
        rw [dropCandidate_onGenesis]
        have hfailed : (s.entry x).nStatus.failed = true := by
          have hsome := find?_some hfind
          exact hsome
        exact ih (h.dropCandidate (mem_of_find?_eq_some hfind) hmem hfailed)

end Rooted

lemma chainActive_findMostWorkFrom {fuel : ℕ} {r : Option Uint256} (h : findMostWorkFrom ctx fuel s = .ok (r, s')) :
    s'.chainActive = s.chainActive := by
  induction fuel generalizing s with
  | zero => cases h
  | succ fuel ih =>
    unfold findMostWorkFrom at h
    split at h
    · cases h
      rfl
    · split at h
      · cases h
      · cases h
        rfl
      · exact (ih h).trans (chainActive_dropCandidate _ _)

end Search

section Activation

lemma Rooted.vpindexToConnect_eq (h : Rooted ctx s) (hw : w ∈ s.mapBlockIndex) {n : ℕ} :
    ∃ rest, (s.vpindexToConnect w (-1) n).reverse = ctx.hashGenesisBlock :: rest := by
  have hheight : (s.entry ctx.hashGenesisBlock).nHeight = 0 := h.ready.tree.leveled.root _ h.pprev
  have hoff := h.offChain_eq hw
  rw [h.offChain_eq_lineage] at hoff
  have hall : ∀ l : List Uint256, l.takeWhile (fun b => ((s.entry b).nHeight : ℤ) ≠ -1) = l := by
    intro l
    rw [takeWhile_eq_self_iff]
    intro b _
    rw [decide_eq_true_eq]
    omega
  have hgenesis : [ctx.hashGenesisBlock].dropWhile (fun b => (n : ℤ) < (s.entry b).nHeight) =
      [ctx.hashGenesisBlock] := by
    apply dropWhile_cons_of_neg
    rw [decide_eq_true_eq, hheight]
    omega
  unfold vpindexToConnect
  rw [hall, hoff, dropWhile_append]
  split_ifs
  · rw [hgenesis]
    exact ⟨[], rfl⟩
  · rw [reverse_append]
    exact ⟨_, rfl⟩

lemma Rooted.activateBestChainStep_eq (h : Rooted ctx s) (hvalid : ctx.connectBlock ctx.hashGenesisBlock = .valid)
    (hw : w ∈ s.setBlockIndexCandidates) :
    ∃ s', activateBestChainStep ctx s w = .ok (.improved, s') ∧ Extended ctx s s' [ctx.hashGenesisBlock] := by
  have htip : s.tip = none := by
    unfold tip
    rw [h.chain]
    rfl
  have hfork : s.findFork w = none := by
    unfold findFork
    rw [find?_eq_none]
    intro b _
    rw [h.contains_eq]
    decide
  have hkept : s.disconnectTo none = s := by
    unfold disconnectTo
    rw [h.chain]
    dsimp only [List.rdropWhile]
    rw [reverse_nil, dropWhile_nil, reverse_nil, ← h.chain]
  have hne : (-1 : ℤ) ≠ (s.entry w).nHeight := by omega
  obtain ⟨n, hn⟩ : ∃ n : ℕ, min (-1 + 32) ((s.entry w).nHeight : ℤ) = n := ⟨min 31 (s.entry w).nHeight, by omega⟩
  obtain ⟨rest, hrest⟩ := h.vpindexToConnect_eq (h.ready.candidates_mem w hw) (n := n)
  obtain ⟨s₁, s', hconnect, hprune, htip', hextended⟩ := connectTip_valid (h.pprev.trans htip.symm) hvalid
    ⟨w, hw, h.ready.notWorse w hw⟩
  refine ⟨s', ?_, hextended⟩
  unfold activateBestChainStep
  dsimp only
  rw [hfork, hkept, htip]
  unfold connectChunks
  dsimp only [Option.map, Option.getD]
  rw [if_neg hne, hn, hrest]
  unfold connectBlocks
  rw [hconnect]
  dsimp only
  rw [hprune]
  rfl

lemma Rooted.advance (h : Rooted ctx s) (hw : Target ctx (onGenesis ctx s) w)
    (hextended : Extended ctx s s' [ctx.hashGenesisBlock]) :
    ∃ rest, Advance ctx (onGenesis ctx s) s' ctx.hashGenesisBlock ctx.hashGenesisBlock w [] rest := by
  have hself : (onGenesis ctx s).lineage ctx.hashGenesisBlock = [ctx.hashGenesisBlock] :=
    h.ready.tree.lineage_root h.pprev
  have hkept : (onGenesis ctx s).disconnectTo (some ctx.hashGenesisBlock) = onGenesis ctx s := by
    unfold disconnectTo onGenesis List.rdropWhile
    dsimp only
    rw [reverse_singleton, dropWhile_cons_of_neg (by simp), reverse_singleton]
  refine ⟨((onGenesis ctx s).offChain w).reverse, h.ready, hw, ?_, ?_, ?_, ?_⟩
  · rw [hself]
    exact mem_singleton_self _
  · unfold Above
    rw [nil_append, reverse_reverse, hself, ← h.offChain_eq (h.ready.candidates_mem w hw.mem),
      h.offChain_eq_lineage]
    rfl
  · rw [nil_append]
  · rw [hkept]
    refine ⟨⟨⟨hextended.map, hextended.pprev, hextended.nHeight, hextended.nChainWork, hextended.nSequenceId,
      hextended.nTx, hextended.nChainTx, hextended.haveData⟩, hextended.validity, hextended.unlinked,
      hextended.sequenceId, hextended.reverseSequenceId, hextended.lastPreciousChainwork⟩, ⟨hextended.failedValid,
      hextended.failedChild⟩, ?_, fun c => ?_⟩
    · rw [hextended.chain, h.chain]
      rfl
    · rw [hextended.candidates, forall_mem_singleton]
      constructor
      · rintro ⟨hc, -⟩
        exact ⟨hc, fun x hx => absurd hx not_mem_nil⟩
      · rintro ⟨hc, -⟩
        exact ⟨hc, h.ready.notWorse c hc⟩

/-- The first iteration makes the genesis block the tip, and the search goes on from there. -/
theorem Unstarted.iterate (h : Unstarted ctx N s) :
    ∃ s' w, ChainState.iterate ctx ⟨s, none⟩ = .ok (.released s' (some w)) ∧
      Searching ctx (onGenesis ctx s) ⟨s', some w⟩ := by
  have hinv := h.settled.1
  have hgood := hinv.good_tip
  obtain ⟨r, s₁', hrun, hdropped, hnone, hsome⟩ := findMostWorkChain_spec hinv.ready
  obtain ⟨s₁, hs₁, rfl⟩ : ∃ s₁, findMostWorkChain ctx s = .ok (r, s₁) ∧ onGenesis ctx s₁ = s₁' := by
    have hsame := h.rooted.findMostWorkFrom_onGenesis (s.setBlockIndexCandidates.length + 1)
    unfold findMostWorkChain at hrun ⊢
    change findMostWorkFrom ctx (s.setBlockIndexCandidates.length + 1) (onGenesis ctx s) = _ at hrun
    rw [hsame] at hrun
    cases hfind : findMostWorkFrom ctx (s.setBlockIndexCandidates.length + 1) s with
    | error e =>
      rw [hfind] at hrun
      cases hrun
    | ok q =>
      rw [hfind] at hrun
      cases hrun
      exact ⟨_, rfl, rfl⟩
  have hchain₁ : s₁.chainActive = [] := (chainActive_findMostWorkFrom hs₁).trans h.chain
  have hkept : Kept ctx (onGenesis ctx s) (onGenesis ctx s₁) := hdropped.kept_of hinv.tree
  have hgood₁ : Good ctx (onGenesis ctx s₁) ctx.hashGenesisBlock :=
    (hkept.good_iff hinv.tree hinv.explained).mpr hgood
  have hrooted : Rooted ctx s₁ :=
    ⟨hchain₁, hdropped.ready hinv.ready, (hdropped.pprev _).trans hinv.genesis.2,
      hgood₁.clean _ ((hdropped.toSameTree.tree hinv.tree).self_mem _)⟩
  cases r with
  | none =>
    -- the genesis block is still a candidate
    obtain ⟨v, -, -, hstays⟩ := hinv.exists_best_candidate
    have hmem := (hstays _ hkept).1
    rw [hnone rfl] at hmem
    cases hmem
  | some w =>
    have hw : Target ctx (onGenesis ctx s₁) w := (hdropped.target_iff hinv.tree).mpr (hsome w rfl)
    have hvalid : ctx.connectBlock ctx.hashGenesisBlock = .valid := (hgood.2 _ (hinv.tree.self_mem _)).2.1
    obtain ⟨s', hstep, hextended⟩ := hrooted.activateBestChainStep_eq hvalid hw.mem
    obtain ⟨rest, hadvance⟩ := hrooted.advance hw hextended
    have hkept' := hadvance.kept_of hgood₁ (fun x hx => absurd hx not_mem_nil)
    refine ⟨s', w, ?_, ctx.hashGenesisBlock, ⟨hadvance.ready', fun v hv => ?_⟩, ?_, ?_⟩
    · have htip : s₁.tip ≠ some w := by
        unfold tip
        rw [hchain₁]
        exact fun hno => nomatch hno
      unfold ChainState.iterate target
      rw [hs₁]
      dsimp only
      rw [if_neg htip, hstep]
    · obtain rfl := Option.some.inj hv
      exact hadvance.target'
    · exact (hkept'.good_iff hrooted.ready.tree (hkept.explained hinv.explained)).mpr hgood₁
    · exact hkept.trans hinv.tree hinv.explained hkept'

/-- The first call ends as one from the genesis block. -/
theorem Unstarted.selected (h : Unstarted ctx N s) {res : Except ChainFailure ChainState}
    (hres : ActivateBestChain ctx s res) : ∃ s' t', res = .ok s' ∧ Selected ctx (onGenesis ctx s) s' t' := by
  obtain ⟨s₁, w, hit, hsearch⟩ := h.iterate
  obtain ⟨fuel, hrun⟩ := hres
  cases fuel with
  | zero => cases hrun
  | succ fuel =>
    unfold activateFrom at hrun
    rw [hit] at hrun
    dsimp only at hrun
    by_cases hend : s₁.tip = some w
    · rw [if_pos hend] at hrun
      rw [← hend] at hsearch
      obtain ⟨t', hselected⟩ := hsearch.selected_of_tip h.settled.1
      exact ⟨s₁, t', (Option.some.inj hrun).symm, hselected⟩
    · rw [if_neg hend] at hrun
      exact hsearch.selected h.settled.1 hrun

end Activation

end ChainState

end MutableBitcoin
