import MutableBitcoin.FirstActivation
import MutableBitcoin.ConnectSafety

/-!
# Orders of arrival

From the genesis block on, headers and blocks arrive in any order, some of them are refused or turn out
invalid, and the best chain is activated in between. `CheckBlockIndex` never finds anything.
-/

namespace MutableBitcoin
open Lib Function List Option

namespace ChainState

variable {ctx : ChainContext} {N : Prop} {s s' : ChainState} {b t g : Uint256} {sha256 : Bytes → Uint256}

section Genesis

def emptyIndex : ChainState where
  mapBlockIndex := []
  entry _ := CBlockIndex.null
  chainActive := []
  setBlockIndexCandidates := []
  mapBlocksUnlinked := []
  nBlockSequenceId := 1
  nBlockReverseSequenceId := -1
  nLastPreciousChainwork := 0

/-- `LoadGenesisBlock` of a node without any block. -/
def loadGenesisBlock (ctx : ChainContext) (block : CBlock sha256) (nFile nPos : ℕ) (fWitness : Bool) :
    Except ChainFailure ChainState :=
  let hash := block.toCBlockHeader.getHash sha256
  receivedBlockTransactions ctx (emptyIndex.addToBlockIndex hash block.toCBlockHeader) block.vtx.length hash nFile nPos
    fWitness

/-- The index of a node that has only its genesis block. -/
structure OnlyGenesis (s : ChainState) (g : Uint256) : Prop where
  map : s.mapBlockIndex = [g]
  pprev : ∀ b, (s.entry b).pprev = none
  nHeight : ∀ b, (s.entry b).nHeight = 0
  nTx : (s.entry g).nTx ≠ 0
  nChainTx : (s.entry g).nChainTx = (s.entry g).nTx
  haveData : (s.entry g).nStatus.haveData = true
  failed : (s.entry g).nStatus.failed = false
  validity : (s.entry g).nStatus.validity = BLOCK_VALID_TRANSACTIONS
  chain : s.chainActive = []
  candidates : s.setBlockIndexCandidates = [g]
  unlinked : s.mapBlocksUnlinked = []
  reverseSequenceId : s.nBlockReverseSequenceId = -1

lemma linkStep_root (ctx : ChainContext) (hp : (s.entry g).pprev = none) (hchain : s.chainActive = []) :
    linkStep ctx s g =
      { s with
        entry := Function.update s.entry g
          { s.entry g with nChainTx := (s.entry g).nTx, nSequenceId := s.nBlockSequenceId }
        setBlockIndexCandidates := s.setBlockIndexCandidates.insert g
        mapBlocksUnlinked := s.mapBlocksUnlinked.filter (fun q => q.1 ≠ some g)
        nBlockSequenceId := s.nBlockSequenceId + 1 } := by
  unfold linkStep linkBlock modifyEntry worseThanTip tip
  rw [hp, hchain]
  simp [insertCandidate]

lemma loadGenesisBlock_spec (ctx : ChainContext) (block : CBlock sha256) (hvtx : block.vtx ≠ []) (nFile nPos : ℕ) (fWitness : Bool) :
    ∃ s, loadGenesisBlock ctx block nFile nPos fWitness = .ok s ∧
      OnlyGenesis s (block.toCBlockHeader.getHash sha256) := by
  unfold loadGenesisBlock
  dsimp only
  generalize block.toCBlockHeader.getHash sha256 = g
  let e : CBlockIndex :=
    { CBlockIndex.ofHeader block.toCBlockHeader with
      nTimeMax := block.nTime
      nChainWork := getBlockProof block.nBits
      nStatus := ⟨BLOCK_VALID_TREE, false, false, false, false, false⟩ }
  let e₁ := withTransactions block.vtx.length nFile nPos fWitness e
  let s₁ : ChainState :=
    { emptyIndex with mapBlockIndex := [g], entry := Function.update (fun _ => CBlockIndex.null) g e₁ }
  have hadded : (emptyIndex.addToBlockIndex g block.toCBlockHeader).modifyEntry g
      (withTransactions block.vtx.length nFile nPos fWitness) = s₁ := by
    have hentry : emptyIndex.addToBlockIndex g block.toCBlockHeader =
        { emptyIndex with mapBlockIndex := [g], entry := Function.update (fun _ => CBlockIndex.null) g e } := rfl
    rw [hentry]
    unfold modifyEntry
    dsimp only
    rw [update_self, update_idem]
  have hself : s₁.entry g = e₁ := by simp only [s₁, update_self]
  have hlink := linkStep_root ctx (s := s₁) (g := g) (by rw [hself]; rfl) rfl
  refine ⟨linkStep ctx s₁ g, ?_, ?_⟩
  · unfold receivedBlockTransactions
    rw [hadded]
    dsimp only
    rw [hself]
    rfl
  · rw [hself] at hlink
    simp only [s₁, update_idem] at hlink
    rw [hlink]
    have hraise : ((⟨BLOCK_VALID_TREE, true, false, false, false, false || fWitness⟩ : BlockStatus).raiseValidity
        BLOCK_VALID_TRANSACTIONS) = ⟨BLOCK_VALID_TRANSACTIONS, true, false, false, false, fWitness⟩ := by
      cases fWitness <;> rfl
    constructor
    case map => rfl
    case chain => rfl
    case candidates => rfl
    case unlinked => rfl
    case reverseSequenceId => rfl
    case pprev =>
      intro b
      dsimp only
      by_cases hb : b = g
      · rw [hb, update_self]
        rfl
      · rw [update_of_ne hb]
        rfl
    case nHeight =>
      intro b
      dsimp only
      by_cases hb : b = g
      · rw [hb, update_self]
        rfl
      · rw [update_of_ne hb]
        rfl
    all_goals
      dsimp only
      rw [update_self]
    case nTx => exact fun hzero => hvtx (length_eq_zero_iff.mp hzero)
    all_goals
      have hstatus : e₁.nStatus = ⟨BLOCK_VALID_TRANSACTIONS, true, false, false, false, fWitness⟩ := hraise
      dsimp only
      rw [hstatus]
    case failed => rfl

lemma OnlyGenesis.inv (h : OnlyGenesis s ctx.hashGenesisBlock) (hvalid : ctx.connectBlock ctx.hashGenesisBlock = .valid) :
    BlockIndexInv ctx (onGenesis ctx s) ctx.hashGenesisBlock [] := by
  have hmem : ∀ {b}, b ∈ s.mapBlockIndex → b = ctx.hashGenesisBlock := by
    intro b hb
    rw [h.map] at hb
    exact mem_singleton.mp hb
  have hleveled : Leveled (fun b => ((onGenesis ctx s).entry b).pprev) (fun b => ((onGenesis ctx s).entry b).nHeight) :=
    ⟨fun b _ => h.nHeight b, fun b p hp => nomatch (h.pprev b).symm.trans hp⟩
  have hself : ∀ b, (onGenesis ctx s).lineage b = [b] := fun b => hleveled.lineage_root (h.pprev b)
  have hg : ctx.hashGenesisBlock ∈ (onGenesis ctx s).mapBlockIndex := by
    change _ ∈ s.mapBlockIndex
    rw [h.map]
    exact mem_singleton_self _
  have htree : Tree (onGenesis ctx s) := by
    refine ⟨hleveled, fun b p hp => ?_, ⟨ctx.hashGenesisBlock, fun b hb => ?_⟩, fun b p hp => ?_⟩
    · exact nomatch (h.pprev b).symm.trans hp
    · rw [hself, hmem hb]
      exact mem_singleton_self _
    · exact nomatch (h.pprev b).symm.trans hp
  constructor
  case toLinkInv =>
    constructor
    case complete =>
      intro b hb _ a ha
      rw [hself, mem_singleton] at ha
      rw [ha, hmem hb]
      exact h.nTx
    case nChainTx_sum =>
      intro b hb _
      rw [hself, hmem hb]
      exact h.nChainTx.trans (by simp)
    case nChainTx_parent => exact fun b _ _ p hp => nomatch (h.pprev b).symm.trans hp
  case toWaitInv =>
    constructor
    case queued => exact fun b hb => absurd hb not_mem_nil
    case queue_nodup => exact nodup_nil
    case unlinked =>
      intro b hb _ hzero
      rw [hmem hb, entry_onGenesis, h.nChainTx] at hzero
      exact absurd hzero h.nTx
    case unlinked_pair =>
      intro q hq
      rw [unlinked_onGenesis, h.unlinked] at hq
      exact absurd hq not_mem_nil
    case unlinked_nodup =>
      rw [unlinked_onGenesis, h.unlinked]
      exact nodup_nil
  case toCandidateInv =>
    constructor
    case candidate =>
      intro b hb _ _ _
      change b ∈ s.setBlockIndexCandidates
      rw [h.candidates, hmem hb]
      exact mem_singleton_self _
    case candidates =>
      intro c hc
      change c ∈ s.setBlockIndexCandidates at hc
      rw [h.candidates, mem_singleton] at hc
      rw [hc, entry_onGenesis, h.nChainTx]
      exact ⟨hg, h.nTx, le_rfl⟩
  case tree => exact htree
  case active =>
    refine ⟨?_, hg⟩
    rw [hself]
    rfl
  case genesis => exact ⟨hg, h.pprev _⟩
  case chain =>
    intro a ha
    rw [hself, mem_singleton] at ha
    rw [ha, entry_onGenesis, h.nChainTx]
    exact ⟨h.nTx, hvalid, h.failed⟩
  case haveData =>
    intro b hb
    rw [hmem hb, entry_onGenesis, h.haveData]
    exact ⟨fun _ => h.nTx, fun _ => rfl⟩
  case explained =>
    intro b hb hfailed
    rw [hmem hb, entry_onGenesis, h.failed] at hfailed
    cases hfailed
  case validity =>
    intro b hb
    rw [hmem hb, entry_onGenesis, h.validity]
    exact ⟨by decide, fun _ => le_rfl⟩
  case nSequenceId =>
    intro b hb hzero
    rw [hmem hb, entry_onGenesis, h.nChainTx] at hzero
    exact absurd hzero h.nTx
  case reverseSequenceId =>
    change s.nBlockReverseSequenceId ≤ 0
    rw [h.reverseSequenceId]
    decide

/-- Nothing is missing in this state. -/
theorem OnlyGenesis.unstarted (h : OnlyGenesis s ctx.hashGenesisBlock)
    (hvalid : ctx.connectBlock ctx.hashGenesisBlock = .valid) : Unstarted ctx N s := by
  refine ⟨h.chain, h.inv hvalid, fun _ => ⟨fun b hb _ hzero => ?_, fun b hb _ hzero => ?_⟩⟩
  all_goals
    change b ∈ s.mapBlockIndex at hb
    rw [h.map, mem_singleton] at hb
    rw [hb, entry_onGenesis, h.nChainTx] at hzero
    exact absurd hzero h.nTx

end Genesis

section Runs

/-- The states after any headers, blocks and activations. -/
inductive Arrived (ctx : ChainContext) (sha256 : Bytes → Uint256) : ChainState → Prop
  | genesis {s : ChainState} {block : CBlock sha256} {nFile nPos : ℕ} {fWitness : Bool}
      (hhash : block.toCBlockHeader.getHash sha256 = ctx.hashGenesisBlock) (hvtx : block.vtx ≠ [])
      (hload : loadGenesisBlock ctx block nFile nPos fWitness = .ok s) : Arrived ctx sha256 s
  | header {s : ChainState} (h : Arrived ctx sha256 s) (block : CBlockHeader) (fContextual : Bool) :
      Arrived ctx sha256 (acceptBlockHeader ctx sha256 s block fContextual).2
  | block {s s' : ChainState} (h : Arrived ctx sha256 s) {block : CBlock sha256} {args : AcceptArgs}
      (hflag : FlagEarned ctx.params block) (hrun : acceptBlock ctx s block args = .ok s') : Arrived ctx sha256 s'
  | activated {s s' : ChainState} (h : Arrived ctx sha256 s) (hrun : ActivateBestChain ctx s (.ok s')) :
      Arrived ctx sha256 s'

/-- The invariants hold, with the chain still empty or not. -/
def Settling (ctx : ChainContext) (s : ChainState) : Prop :=
  Unstarted ctx True s ∨ ∃ t, SettledIf ctx True s t []

lemma Settling.activated (h : Settling ctx s) {res : Except ChainFailure ChainState}
    (hres : ActivateBestChain ctx s res) : ∃ s' t', res = .ok s' ∧ SettledIf ctx True s' t' [] := by
  obtain ⟨s₀, t, hsettled, s', t', rfl, hselected⟩ : ∃ s₀ t, SettledIf ctx True s₀ t [] ∧
      ∃ s' t', res = .ok s' ∧ Selected ctx s₀ s' t' := by
    cases h with
    | inl hunstarted => exact ⟨_, _, hunstarted.settled, hunstarted.selected hres⟩
    | inr hsettled =>
      obtain ⟨t, hsettled⟩ := hsettled
      exact ⟨s, t, hsettled, selected_of_run hsettled.1 hres⟩
  exact ⟨s', t', rfl, hselected.inv hsettled.1, fun hN => hselected.neverStranded (hsettled.2 hN)⟩

theorem Arrived.settling (h : Arrived ctx sha256 s) (hvalid : ctx.connectBlock ctx.hashGenesisBlock = .valid) :
    Settling ctx s := by
  induction h with
  | genesis hhash hvtx hload =>
    obtain ⟨s', hload', honly⟩ := loadGenesisBlock_spec ctx _ hvtx _ _ _
    obtain rfl := Except.ok.inj (hload.symm.trans hload')
    rw [hhash] at honly
    exact Or.inl (honly.unstarted hvalid)
  | header h block fContextual ih =>
    cases ih with
    | inl hunstarted => exact Or.inl (hunstarted.header sha256 block fContextual)
    | inr hsettled =>
      obtain ⟨t, hsettled⟩ := hsettled
      exact Or.inr ⟨t, (acceptBlockHeader_spec sha256 hsettled block fContextual).1⟩
  | @block s s' h block args hflag hrun ih =>
    cases ih with
    | inl hunstarted =>
      obtain ⟨s'', hrun', hsettled⟩ := hunstarted.block block args hflag
      obtain rfl := Except.ok.inj (hrun.symm.trans hrun')
      exact Or.inl hsettled
    | inr hsettled =>
      obtain ⟨t, hsettled⟩ := hsettled
      obtain ⟨s'', hrun', hsettled⟩ := acceptBlock_spec hsettled block args hflag
      obtain rfl := Except.ok.inj (hrun.symm.trans hrun')
      exact Or.inr ⟨t, hsettled⟩
  | activated h hrun ih =>
    obtain ⟨s'', t', hok, hsettled⟩ := ih.activated hrun
    obtain rfl := Except.ok.inj hok
    exact Or.inr ⟨t', hsettled⟩

/-- What `CheckBlockIndex` asserts of counts, work and flags along the links. -/
structure LinksChecked (ctx : ChainContext) (s : ChainState) : Prop where
  nChainTx : ∀ b ∈ s.mapBlockIndex, (s.entry b).nChainTx ≠ 0 ↔ ∀ a ∈ s.lineage b, 0 < (s.entry a).nTx
  nChainTx_sum : ∀ b ∈ s.mapBlockIndex, (s.entry b).nChainTx ≠ 0 →
    (s.entry b).nChainTx = ((s.lineage b).map (fun a => (s.entry a).nTx)).sum
  unlinked : ∀ b ∈ s.mapBlockIndex, (s.entry b).nStatus.haveData = true →
    (∃ a ∈ s.lineage b, (s.entry a).nStatus.haveData = false) → s.NoneInvalid b →
    ((s.entry b).pprev, b) ∈ s.mapBlocksUnlinked
  unlinked_pair : ∀ q ∈ s.mapBlocksUnlinked, q.2 ∈ s.mapBlockIndex ∧ q.1 = (s.entry q.2).pprev ∧
    (s.entry q.2).nStatus.haveData = true ∧ ∃ a ∈ s.lineage q.2, (s.entry a).nStatus.haveData = false
  failed : ∀ b ∈ s.mapBlockIndex, (s.entry b).nStatus.failed = true →
    ∃ a ∈ s.lineage b, (s.entry a).nStatus.failedValid = true
  candidate : ∀ b ∈ s.mapBlockIndex, (s.entry b).nChainTx ≠ 0 → s.Clean b → s.worseThanTip ctx b = false →
    b ∈ s.setBlockIndexCandidates

lemma SettledIf.linksChecked (h : SettledIf ctx True s t []) : LinksChecked ctx s := by
  obtain ⟨hinv, hstranded⟩ := h
  have hiff := fun b hb => (hstranded trivial).nChainTx_iff (b := b) hinv hb
  have hdata : ∀ {a b}, b ∈ s.mapBlockIndex → a ∈ s.lineage b →
      ((s.entry a).nStatus.haveData = false ↔ (s.entry a).nTx = 0) := by
    intro a b hb ha
    rw [← Bool.not_eq_true, hinv.haveData a (hinv.tree.mem_of_lineage hb ha), not_not]
  constructor
  case nChainTx =>
    intro b hb
    rw [hiff b hb]
    exact forall₂_congr fun a _ => Nat.pos_iff_ne_zero.symm
  case nChainTx_sum => exact hinv.nChainTx_sum
  case unlinked =>
    intro b hb hhave hmissing hok
    obtain ⟨a, ha, hnone⟩ := hmissing
    refine hinv.unlinked b hb ((hinv.haveData b hb).mp hhave) ?_ not_mem_nil hok
    by_contra hlinked
    exact hinv.complete b hb hlinked a ha ((hdata hb ha).mp hnone)
  case unlinked_pair =>
    intro q hq
    obtain ⟨hmem, hhave, p, hp, hp', hzero⟩ := hinv.unlinked_pair q hq
    refine ⟨hmem, hp.trans hp'.symm, (hinv.haveData _ hmem).mpr hhave, ?_⟩
    by_contra hall
    have hcomplete : s.Complete p := by
      intro a ha hnone
      have ha' : a ∈ s.lineage q.2 := (hinv.tree.mem_step hp').mpr (Or.inr ha)
      exact hall ⟨a, ha', (hdata hmem ha').mpr hnone⟩
    exact (hiff p (hinv.tree.parent_mem _ _ hp')).mpr hcomplete hzero
  case failed => exact hinv.explained
  case candidate =>
    intro b hb hlinked hok hworse
    apply hinv.candidate b hb hlinked hok
    rw [← not_lt, ← worseThanTip_iff (hinv.active.tip hinv.tree), Bool.not_eq_true]
    exact hworse

lemma Settling.linksChecked (h : Settling ctx s) : LinksChecked ctx s := by
  cases h with
  | inr hsettled =>
    obtain ⟨t, hsettled⟩ := hsettled
    exact hsettled.linksChecked
  | inl hunstarted =>
    have hinv := hunstarted.settled.1
    have hchecked := hunstarted.settled.linksChecked
    refine ⟨hchecked.nChainTx, hchecked.nChainTx_sum, hchecked.unlinked, hchecked.unlinked_pair, hchecked.failed, ?_⟩
    intro b hb hlinked hok _
    exact hinv.candidate b hb hlinked hok (hinv.tree.rank_le (hinv.genesis_mem hb))

/-- In every order of arrival the links are right, and no assertion fails in what comes next. -/
theorem arrived_checked (hvalid : ctx.connectBlock ctx.hashGenesisBlock = .valid) (h : Arrived ctx sha256 s) :
    LinksChecked ctx s ∧
      (∀ (block : CBlock sha256) args, FlagEarned ctx.params block → ∃ s', acceptBlock ctx s block args = .ok s') ∧
      ∀ l, LoopRun ctx ⟨s, none⟩ l → ∃ it, iterate ctx l = .ok it := by
  have hsettling := h.settling hvalid
  refine ⟨hsettling.linksChecked, fun block args hflag => ?_, fun l hrun => ?_⟩
  · cases hsettling with
    | inl hunstarted =>
      obtain ⟨s', hrun, -⟩ := hunstarted.block block args hflag
      exact ⟨s', hrun⟩
    | inr hsettled =>
      obtain ⟨t, hsettled⟩ := hsettled
      obtain ⟨s', hrun, -⟩ := acceptBlock_spec hsettled block args hflag
      exact ⟨s', hrun⟩
  · have hready : ∀ {l₀ t₀}, LoopReady ctx l₀ t₀ → LoopRun ctx l₀ l → ∃ it, iterate ctx l = .ok it := by
      intro l₀ t₀ hl₀ hrun
      obtain ⟨t', ht'⟩ := hl₀.run hrun
      obtain ⟨it, hit, -⟩ := iterate_spec ht'
      exact ⟨it, hit⟩
    cases hsettling with
    | inr hsettled =>
      obtain ⟨t, hsettled⟩ := hsettled
      exact hready (LoopReady.of_ready hsettled.1.ready) hrun
    | inl hunstarted =>
      obtain ⟨s₁, w, hit, t₁, ht₁, -⟩ := hunstarted.iterate
      cases hrun.cases_head with
      | inl heq => exact ⟨_, heq ▸ hit⟩
      | inr hstep =>
        obtain ⟨l₁, hstep, hrest⟩ := hstep
        have heq := hit.symm.trans hstep.1
        obtain ⟨s₂, r⟩ := l₁
        cases heq
        exact hready ht₁ hrest

def arrivingBlock (hashPrevBlock : Uint256) (nNonce : UInt32) : CBlock cSHA256 where
  nVersion := 4
  hashPrevBlock := hashPrevBlock
  hashMerkleRoot := coinbaseTx.hash
  nTime := 1296688602
  nBits := 0x207fffff
  nNonce := nNonce
  hashUChainVersion := BaseBlob.null 32
  vtx := [coinbaseTx]
  fChecked := false

def rootBlock : CBlock cSHA256 := arrivingBlock (BaseBlob.null 32) 0

def parentBlock : CBlock cSHA256 := arrivingBlock (rootBlock.toCBlockHeader.getHash cSHA256) 2

def childBlock : CBlock cSHA256 := arrivingBlock (parentBlock.toCBlockHeader.getHash cSHA256) 1

def arrivalContext : ChainContext :=
  { forkedContext .valid with
    params := regtest
    hashGenesisBlock := rootBlock.toCBlockHeader.getHash cSHA256
    connectBlock := fun _ => .valid }

def arrivalArgs : AcceptArgs := ⟨true, true, .ok (), 0, 8, false⟩

def afterHeader : Except ChainFailure ChainState := do
  let s ← loadGenesisBlock arrivalContext rootBlock 0 8 false
  return (acceptBlockHeader arrivalContext cSHA256 s parentBlock.toCBlockHeader true).2

def afterChild : Except ChainFailure ChainState := do acceptBlock arrivalContext (← afterHeader) childBlock arrivalArgs

def afterParent : Except ChainFailure ChainState := do acceptBlock arrivalContext (← afterChild) parentBlock arrivalArgs

/-- The header of a block arrives, then its child, which waits for it, then the block; and both are connected. -/
theorem arrived_checked_childFirst :
    let hash := fun block : CBlock cSHA256 => block.toCBlockHeader.getHash cSHA256
    ∃ s₁ s₂ s, afterChild = .ok s₁ ∧ s₁.mapBlocksUnlinked = [(some (hash parentBlock), hash childBlock)] ∧
      afterParent = .ok s₂ ∧ s₂.mapBlocksUnlinked = [] ∧ ActivateBestChain arrivalContext s₂ (.ok s) ∧
      s.chainActive = [hash rootBlock, hash parentBlock, hash childBlock] ∧ LinksChecked arrivalContext s ∧
      ∀ l, LoopRun arrivalContext ⟨s, none⟩ l → ∃ it, iterate arrivalContext l = .ok it := by
  intro hash
  have hwaits : afterChild.toOption.map (·.mapBlocksUnlinked) = some [(some (hash parentBlock), hash childBlock)] := by
    decide +kernel
  have hlinked : afterParent.toOption.map (·.mapBlocksUnlinked) = some [] := by decide +kernel
  have hactivated : (afterParent.toOption.bind fun s =>
      (activateFrom arrivalContext 4 ⟨s, none⟩).bind Except.toOption).map (·.chainActive) =
        some [hash rootBlock, hash parentBlock, hash childBlock] := by
    decide +kernel
  obtain ⟨s₁, hs₁, hpair⟩ := map_eq_some_iff.mp hwaits
  obtain ⟨s₂, hs₂, hnone⟩ := map_eq_some_iff.mp hlinked
  obtain ⟨s, hs, hchain⟩ := map_eq_some_iff.mp hactivated
  rw [hs₂, bind_some] at hs
  obtain ⟨r, hr, hs⟩ := bind_eq_some_iff.mp hs
  obtain rfl := eq_ok_of_toOption hs
  have hrun₁ := eq_ok_of_toOption hs₁
  have hrun₂ := eq_ok_of_toOption hs₂
  obtain ⟨s₀, hheader, hchild⟩ := bind_eq_ok_iff.mp hrun₁
  obtain ⟨s₁', hsame, hparent⟩ := bind_eq_ok_iff.mp hrun₂
  obtain rfl := Except.ok.inj (hrun₁.symm.trans hsame)
  obtain ⟨s₀', hload, hadded⟩ := bind_eq_ok_iff.mp hheader
  obtain rfl := Except.ok.inj hadded
  have hflag : ∀ prev nNonce, FlagEarned arrivalContext.params (arrivingBlock prev nNonce) := fun _ _ h => nomatch h
  have hgenesis : Arrived arrivalContext cSHA256 s₀' := .genesis rfl (cons_ne_nil _ _) hload
  have harrived : Arrived arrivalContext cSHA256 s :=
    .activated (.block (.block (.header hgenesis _ true) (hflag _ _) hchild) (hflag _ _) hparent) ⟨4, hr⟩
  obtain ⟨hchecked, -, hiterate⟩ := arrived_checked rfl harrived
  exact ⟨s₁, s₂, s, hrun₁, hpair, hrun₂, hnone, ⟨4, hr⟩, hchain, hchecked, hiterate⟩

end Runs

end ChainState

end MutableBitcoin
