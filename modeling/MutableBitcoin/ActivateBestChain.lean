import MutableBitcoin.BlockIndex
import Mathlib.Data.Prod.Lex

/-!
# Activation of the best chain

`FindMostWorkChain`, `PruneBlockIndexCandidates`, `ActivateBestChainStep`, `ActivateBestChain` and the
commands `PreciousBlock`, `InvalidateBlock` and `ResetBlockFailureFlags` of `validation.cpp`. Blocks are
read and disconnected without system errors, and the node is not told to shut down.
-/

namespace MutableBitcoin
open Lib List

namespace ChainState

variable (ctx : ChainContext)

section MostWork

def best (s : ChainState) : List Uint256 → Option Uint256
  | [] => none
  | c :: cs =>
    match best s cs with
    | none => some c
    | some w => if workComparator ctx s c w then some w else some c

/-- The blocks from `pindexNew` down to the active chain. -/
def offChain (s : ChainState) (pindexNew : Uint256) : List Uint256 :=
  (s.lineage pindexNew).takeWhile (fun b => !s.contains b)

/-- The first block on the way to the fork that failed or has no data. -/
def findUnusable (s : ChainState) : List Uint256 → Except ChainFailure (Option Uint256)
  | [] => .ok none
  | pindexTest :: rest =>
    if (s.entry pindexTest).nChainTx = 0 ∧ (s.entry pindexTest).nHeight ≠ 0 then .error .assertion
    else if (s.entry pindexTest).nStatus.failed || !(s.entry pindexTest).nStatus.haveData then
      .ok (some pindexTest)
    else findUnusable s rest

def dropFailed (fFailedChain : Bool) (s : ChainState) (pindexFailed : Uint256) : ChainState :=
  let s :=
    if fFailedChain then s.modifyStatus pindexFailed (fun st => { st with failedChild := true })
    else { s with mapBlocksUnlinked :=
      s.mapBlocksUnlinked ++ [((s.entry pindexFailed).pprev, pindexFailed)] }
  s.eraseCandidate pindexFailed

def dropCandidate (s : ChainState) (pindexNew pindexTest : Uint256) : ChainState :=
  let fFailedChain := (s.entry pindexTest).nStatus.failed
  (((s.lineage pindexNew).takeWhile (· ≠ pindexTest)).foldl (dropFailed fFailedChain) s).eraseCandidate
    pindexTest

/-- `FindMostWorkChain`, within `fuel` iterations. -/
def findMostWorkFrom : ℕ → ChainState → Except ChainFailure (Option Uint256 × ChainState)
  | 0, _ => .error .endlessLoop
  | fuel + 1, s =>
    match best ctx s s.setBlockIndexCandidates with
    | none => .ok (none, s)
    | some pindexNew =>
      match findUnusable s (s.offChain pindexNew) with
      | .error e => .error e
      | .ok none => .ok (some pindexNew, s)
      | .ok (some pindexTest) => findMostWorkFrom fuel (s.dropCandidate pindexNew pindexTest)

/-- Every iteration but the last makes the set smaller. -/
def findMostWorkChain (s : ChainState) : Except ChainFailure (Option Uint256 × ChainState) :=
  findMostWorkFrom ctx (s.setBlockIndexCandidates.length + 1) s

end MostWork

section Step

/-- `PruneBlockIndexCandidates`. -/
def pruneBlockIndexCandidates (s : ChainState) : Except ChainFailure ChainState :=
  match s.tip with
  | none => .error .nullDereference
  | some tip =>
    let kept := s.setBlockIndexCandidates.filter (fun c => !workComparator ctx s c tip)
    if kept.isEmpty then .error .assertion else .ok { s with setBlockIndexCandidates := kept }

/-- What `ConnectBlock` leaves in the entry of a valid block. It returns early for the genesis block. -/
def connected (b : Uint256) (e : CBlockIndex) : CBlockIndex :=
  if b = ctx.hashGenesisBlock || e.nStatus.haveUndo && e.nStatus.isValid BLOCK_VALID_SCRIPTS then e
  else
    { e with
      nUndoPos := if e.nStatus.haveUndo then e.nUndoPos else ctx.undoPos b
      nStatus := { e.nStatus with haveUndo := true }.raiseValidity BLOCK_VALID_SCRIPTS }

/-- `InvalidBlockFound`. -/
def invalidBlockFound (s : ChainState) (pindex : Uint256) : ChainState :=
  (s.modifyStatus pindex (fun st => { st with failedValid := true })).eraseCandidate pindex

/-- `ConnectTip` and whether the block was connected. After an invalid block a tip is asserted. -/
def connectTip (s : ChainState) (pindexNew : Uint256) : Except ChainFailure (Bool × ChainState) :=
  if (s.entry pindexNew).pprev ≠ s.tip then .error .assertion
  else
    match ctx.connectBlock pindexNew with
    | .valid =>
      .ok (true, { s.modifyEntry pindexNew (connected ctx pindexNew) with
        chainActive := s.chainActive ++ [pindexNew] })
    | .invalid => if s.tip = none then .error .assertion else .ok (false, s.invalidBlockFound pindexNew)
    | .corrupted => .ok (false, s)

/-- How the loop of a step over the blocks to connect ends. -/
inductive StepEnd where
  | connected
  | improved
  | invalidFound
deriving DecidableEq

def improves (s : ChainState) (pindexOldTip : Option Uint256) : Bool :=
  match pindexOldTip, s.tip with
  | some old, some tip => (s.entry old).nChainWork < (s.entry tip).nChainWork
  | _, _ => true

/-- The loop over `vpindexToConnect`. -/
def connectBlocks (pindexOldTip : Option Uint256) : List Uint256 → ChainState →
    Except ChainFailure (StepEnd × ChainState)
  | [], s => .ok (.connected, s)
  | pindexConnect :: rest, s =>
    match connectTip ctx s pindexConnect with
    | .error e => .error e
    | .ok (false, s) => .ok (.invalidFound, s)
    | .ok (true, s) =>
      match pruneBlockIndexCandidates ctx s with
      | .error e => .error e
      | .ok s => if s.improves pindexOldTip then .ok (.improved, s) else connectBlocks pindexOldTip rest s

/-- The blocks to connect next, the last one first: from the ancestor of `pindexMostWork` at the target
height down to the height `nHeight`. -/
def vpindexToConnect (s : ChainState) (pindexMostWork : Uint256) (nHeight nTargetHeight : ℤ) : List Uint256 :=
  ((s.lineage pindexMostWork).dropWhile (fun b => nTargetHeight < (s.entry b).nHeight)).takeWhile
    (fun b => ((s.entry b).nHeight : ℤ) ≠ nHeight)

/-- The outer loop, which connects up to 32 blocks at a time, within `fuel` iterations. -/
def connectChunks (pindexMostWork : Uint256) (pindexOldTip : Option Uint256) : ℕ → ℤ → ChainState →
    Except ChainFailure (StepEnd × ChainState)
  | 0, _, _ => .error .endlessLoop
  | fuel + 1, nHeight, s =>
    if nHeight = (s.entry pindexMostWork).nHeight then .ok (.connected, s)
    else
      let nTargetHeight := min (nHeight + 32) (s.entry pindexMostWork).nHeight
      match connectBlocks ctx pindexOldTip (s.vpindexToConnect pindexMostWork nHeight nTargetHeight).reverse s with
      | .ok (.connected, s) => connectChunks pindexMostWork pindexOldTip fuel nTargetHeight s
      | r => r

def disconnectTo (s : ChainState) (pindexFork : Option Uint256) : ChainState :=
  { s with chainActive := s.chainActive.rdropWhile (fun b => some b ≠ pindexFork) }

/-- `ActivateBestChainStep`. -/
def activateBestChainStep (s : ChainState) (pindexMostWork : Uint256) :
    Except ChainFailure (StepEnd × ChainState) :=
  let pindexFork := s.findFork pindexMostWork
  let nHeight : ℤ := (pindexFork.map (fun f => ((s.entry f).nHeight : ℤ))).getD (-1)
  connectChunks ctx pindexMostWork s.tip ((s.entry pindexMostWork).nHeight + 2) nHeight (s.disconnectTo pindexFork)

end Step

section Loop

/-- The state at the start of an iteration of `ActivateBestChain`, with the cached target. -/
structure LoopState where
  chain : ChainState
  pindexMostWork : Option Uint256

/-- The outcome of an iteration that does not fail. -/
inductive Iteration where
  | idle (s : ChainState)
  | released (s : ChainState) (pindexMostWork : Option Uint256)

def target (l : LoopState) : Except ChainFailure (Option Uint256 × ChainState) :=
  match l.pindexMostWork with
  | some w => .ok (some w, l.chain)
  | none => findMostWorkChain ctx l.chain

/-- An iteration of the loop of `ActivateBestChain`. -/
def iterate (l : LoopState) : Except ChainFailure Iteration :=
  match target ctx l with
  | .error e => .error e
  | .ok (none, s) => .ok (.idle s)
  | .ok (some w, s) =>
    if s.tip = some w then .ok (.idle s)
    else
      match activateBestChainStep ctx s w with
      | .error e => .error e
      | .ok (.invalidFound, s) => .ok (.released s none)
      | .ok (_, s) => .ok (.released s (some w))

/-- `ActivateBestChain` within `fuel` iterations: `none` if it needs more. -/
def activateFrom : ℕ → LoopState → Option (Except ChainFailure ChainState)
  | 0, _ => none
  | fuel + 1, l =>
    match iterate ctx l with
    | .error e => some (.error e)
    | .ok (.idle s) => some (.ok s)
    | .ok (.released s w) => if s.tip = w then some (.ok s) else activateFrom fuel ⟨s, w⟩

/-- The call returns `r`. -/
def ActivateBestChain (s : ChainState) (r : Except ChainFailure ChainState) : Prop :=
  ∃ fuel, activateFrom ctx fuel ⟨s, none⟩ = some r

end Loop

end ChainState

/-!
## The tree of the block index

The comparator orders the blocks by a rank, in which no two blocks agree.
-/

namespace ChainState

variable {ctx : ChainContext} {s s' s'' : ChainState} {a b c f p t w : Uint256}

section Rank

def rank (ctx : ChainContext) (s : ChainState) (b : Uint256) : ℕ ×ₗ ℤᵒᵈ ×ₗ ℕᵒᵈ :=
  toLex ((s.entry b).nChainWork,
    toLex (OrderDual.toDual (s.entry b).nSequenceId, OrderDual.toDual (ctx.address b)))

lemma workComparator_iff : workComparator ctx s a b = true ↔ rank ctx s a < rank ctx s b := by
  unfold workComparator rank
  rw [Prod.Lex.toLex_lt_toLex, Prod.Lex.toLex_lt_toLex]
  simp only [OrderDual.toDual_lt_toDual, OrderDual.toDual_inj]
  split_ifs <;> simp <;> omega

lemma workComparator_eq_false_iff : workComparator ctx s a b = false ↔ rank ctx s b ≤ rank ctx s a := by
  rw [← not_lt, ← workComparator_iff, Bool.not_eq_true]

lemma rank_injective : Function.Injective (rank ctx s) := by
  intro a b h
  have haddress := congrArg (fun r => OrderDual.ofDual (ofLex (ofLex r).2).2) h
  exact ctx.address_injective haddress

lemma rank_lt_of_work_lt (h : (s.entry a).nChainWork < (s.entry b).nChainWork) :
    rank ctx s a < rank ctx s b := by
  unfold rank
  rw [Prod.Lex.toLex_lt_toLex]
  exact Or.inl h

lemma worseThanTip_iff (ht : s.tip = some t) : s.worseThanTip ctx b = true ↔ rank ctx s b < rank ctx s t := by
  unfold worseThanTip
  rw [ht]
  exact workComparator_iff

lemma best_eq_none_iff {l : List Uint256} : best ctx s l = none ↔ l = [] := by
  cases l with
  | nil => simp [best]
  | cons c cs =>
    unfold best
    cases best ctx s cs with
    | none => simp
    | some w =>
      dsimp only
      split_ifs <;> simp

lemma best_spec {l : List Uint256} (h : best ctx s l = some w) :
    w ∈ l ∧ ∀ c ∈ l, rank ctx s c ≤ rank ctx s w := by
  induction l generalizing w with
  | nil => cases h
  | cons c cs ih =>
    unfold best at h
    cases hbest : best ctx s cs with
    | none =>
      rw [hbest] at h
      obtain rfl := Option.some.inj h
      rw [best_eq_none_iff] at hbest
      subst hbest
      exact ⟨mem_cons_self, fun d hd => by rw [mem_singleton.mp hd]⟩
    | some v =>
      rw [hbest] at h
      obtain ⟨hmem, hmax⟩ := ih hbest
      dsimp only at h
      by_cases hlt : workComparator ctx s c v = true
      · rw [if_pos hlt] at h
        obtain rfl := Option.some.inj h
        refine ⟨mem_cons_of_mem _ hmem, ?_⟩
        rw [forall_mem_cons]
        exact ⟨(workComparator_iff.mp hlt).le, hmax⟩
      · rw [if_neg hlt] at h
        obtain rfl := Option.some.inj h
        refine ⟨mem_cons_self, ?_⟩
        rw [forall_mem_cons]
        rw [workComparator_iff, not_lt] at hlt
        exact ⟨le_rfl, fun d hd => (hmax d hd).trans hlt⟩

end Rank

section Tree

/-- The entries are the nodes of a tree: every entry has its parent in the index, and all lineages end in
one genesis block. A child has more work than its parent. -/
structure Tree (s : ChainState) : Prop where
  leveled : Leveled (fun b => (s.entry b).pprev) (fun b => (s.entry b).nHeight)
  parent_mem : ∀ b p, (s.entry b).pprev = some p → p ∈ s.mapBlockIndex
  root : ∃ g, ∀ b ∈ s.mapBlockIndex, g ∈ s.lineage b
  work : ∀ b p, (s.entry b).pprev = some p → (s.entry p).nChainWork < (s.entry b).nChainWork

variable (h : Tree s)

include h

lemma Tree.self_mem (b : Uint256) : b ∈ s.lineage b := h.leveled.self_mem b

lemma Tree.lineage_step (hb : (s.entry b).pprev = some p) : s.lineage b = b :: s.lineage p :=
  h.leveled.lineage_step hb

lemma Tree.lineage_root (hb : (s.entry b).pprev = none) : s.lineage b = [b] :=
  h.leveled.lineage_root hb

lemma Tree.mem_step (hb : (s.entry b).pprev = some p) : a ∈ s.lineage b ↔ a = b ∨ a ∈ s.lineage p :=
  h.leveled.mem_step hb

lemma Tree.trans (ha : a ∈ s.lineage b) (hb : b ∈ s.lineage c) : a ∈ s.lineage c :=
  h.leveled.trans ha hb

lemma Tree.eq_append_of_mem (ha : a ∈ s.lineage b) :
    ∃ below, s.lineage b = below ++ s.lineage a ∧ a ∉ below ∧ ∀ c ∈ below, a ∈ s.lineage c :=
  h.leveled.eq_append_of_mem ha

lemma Tree.rank_le (ha : a ∈ s.lineage b) : rank ctx s a ≤ rank ctx s b := by
  by_cases hne : a = b
  · rw [hne]
  · exact (rank_lt_of_work_lt (h.leveled.lt_of_mem h.work ha hne)).le

lemma Tree.mem_of_lineage (hb : b ∈ s.mapBlockIndex) (ha : a ∈ s.lineage b) : a ∈ s.mapBlockIndex := by
  induction b using h.leveled.induction with
  | hroot b hp =>
    rw [h.lineage_root hp, mem_singleton] at ha
    rwa [ha]
  | hstep b p hp ih =>
    cases (h.mem_step hp).mp ha with
    | inl heq => rwa [heq]
    | inr hmem => exact ih (h.parent_mem b p hp) hmem

end Tree

section SameTree

/-- The same entries on the same parents. -/
structure SameShape (s s' : ChainState) : Prop where
  map : s'.mapBlockIndex = s.mapBlockIndex
  pprev : ∀ b, (s'.entry b).pprev = (s.entry b).pprev
  nHeight : ∀ b, (s'.entry b).nHeight = (s.entry b).nHeight
  nChainWork : ∀ b, (s'.entry b).nChainWork = (s.entry b).nChainWork

namespace SameShape

lemma lineage (h : SameShape s s') (b : Uint256) : s'.lineage b = s.lineage b := by
  have hpprev : (fun a => (s'.entry a).pprev) = fun a => (s.entry a).pprev := funext h.pprev
  have hheight : (fun a => (s'.entry a).nHeight) = fun a => (s.entry a).nHeight := funext h.nHeight
  unfold ChainState.lineage
  rw [hpprev, hheight]

lemma tree (h : SameShape s s') (hs : Tree s) : Tree s' where
  leveled := by
    have hpprev : (fun a => (s'.entry a).pprev) = fun a => (s.entry a).pprev := funext h.pprev
    have hheight : (fun a => (s'.entry a).nHeight) = fun a => (s.entry a).nHeight := funext h.nHeight
    rw [hpprev, hheight]
    exact hs.leveled
  parent_mem b p hp := by
    rw [h.pprev] at hp
    rw [h.map]
    exact hs.parent_mem b p hp
  root := by
    obtain ⟨g, hg⟩ := hs.root
    refine ⟨g, fun b hb => ?_⟩
    rw [h.map] at hb
    rw [h.lineage]
    exact hg b hb
  work b p hp := by
    rw [h.pprev] at hp
    rw [h.nChainWork, h.nChainWork]
    exact hs.work b p hp

end SameShape

/-- The states have the same entries but for flags other than `BLOCK_HAVE_DATA`, and undo positions. -/
structure SameTree (s s' : ChainState) : Prop where
  map : s'.mapBlockIndex = s.mapBlockIndex
  pprev : ∀ b, (s'.entry b).pprev = (s.entry b).pprev
  nHeight : ∀ b, (s'.entry b).nHeight = (s.entry b).nHeight
  nChainWork : ∀ b, (s'.entry b).nChainWork = (s.entry b).nChainWork
  nSequenceId : ∀ b, (s'.entry b).nSequenceId = (s.entry b).nSequenceId
  nTx : ∀ b, (s'.entry b).nTx = (s.entry b).nTx
  nChainTx : ∀ b, (s'.entry b).nChainTx = (s.entry b).nChainTx
  haveData : ∀ b, (s'.entry b).nStatus.haveData = (s.entry b).nStatus.haveData

namespace SameTree

lemma refl (s : ChainState) : SameTree s s :=
  ⟨rfl, fun _ => rfl, fun _ => rfl, fun _ => rfl, fun _ => rfl, fun _ => rfl, fun _ => rfl, fun _ => rfl⟩

lemma trans (h : SameTree s s') (h' : SameTree s' s'') : SameTree s s'' where
  map := h'.map.trans h.map
  pprev b := (h'.pprev b).trans (h.pprev b)
  nHeight b := (h'.nHeight b).trans (h.nHeight b)
  nChainWork b := (h'.nChainWork b).trans (h.nChainWork b)
  nSequenceId b := (h'.nSequenceId b).trans (h.nSequenceId b)
  nTx b := (h'.nTx b).trans (h.nTx b)
  nChainTx b := (h'.nChainTx b).trans (h.nChainTx b)
  haveData b := (h'.haveData b).trans (h.haveData b)

lemma of_entry (hmap : s'.mapBlockIndex = s.mapBlockIndex) (hentry : s'.entry = s.entry) : SameTree s s' := by
  refine ⟨hmap, ?_, ?_, ?_, ?_, ?_, ?_, ?_⟩ <;> intro b <;> rw [hentry]

lemma shape (h : SameTree s s') : SameShape s s' := ⟨h.map, h.pprev, h.nHeight, h.nChainWork⟩

lemma lineage (h : SameTree s s') (b : Uint256) : s'.lineage b = s.lineage b := h.shape.lineage b

lemma rank (h : SameTree s s') (b : Uint256) : rank ctx s' b = rank ctx s b := by
  unfold ChainState.rank
  rw [h.nChainWork, h.nSequenceId]

lemma workComparator (h : SameTree s s') (a b : Uint256) :
    workComparator ctx s' a b = workComparator ctx s a b := by
  rw [Bool.eq_iff_iff, workComparator_iff, workComparator_iff, h.rank, h.rank]

lemma tree (h : SameTree s s') (hs : Tree s) : Tree s' := h.shape.tree hs

end SameTree

lemma sameTree_eraseCandidate (b : Uint256) : SameTree s (s.eraseCandidate b) :=
  SameTree.of_entry rfl rfl

end SameTree

section Branch

/-- The active chain is the branch of `t`. -/
structure ActiveTip (s : ChainState) (t : Uint256) : Prop where
  chain : s.chainActive = (s.lineage t).reverse
  mem : t ∈ s.mapBlockIndex

variable (h : Tree s) (ht : ActiveTip s t)

lemma tip_of_chain (h : Tree s) (hchain : s.chainActive = (s.lineage t).reverse) : s.tip = some t := by
  unfold tip
  rw [hchain, getLast?_reverse]
  cases hp : (s.entry t).pprev with
  | none => rw [h.lineage_root hp]; rfl
  | some p => rw [h.lineage_step hp]; rfl

include h ht

lemma ActiveTip.tip : s.tip = some t := tip_of_chain h ht.chain

lemma ActiveTip.contains_iff : s.contains b = true ↔ b ∈ s.lineage t := by
  unfold contains
  rw [ht.chain, decide_eq_true_eq]
  have hget := h.leveled.getElem?_reverse (a := b) t (n := (s.entry b).nHeight)
  unfold lineage at hget ⊢
  rw [hget]
  exact and_iff_left rfl

lemma ActiveTip.findFork (hb : b ∈ s.mapBlockIndex) :
    ∃ f, s.findFork b = some f ∧ f ∈ s.lineage t ∧ f ∈ s.lineage b ∧
      s.lineage b = s.offChain b ++ s.lineage f := by
  obtain ⟨g, hg⟩ := h.root
  have hroot : ∃ a ∈ s.lineage b, s.contains a = true := ⟨g, hg b hb, (ht.contains_iff h).mpr (hg t ht.mem)⟩
  obtain ⟨f, hfind, hf, hmem, hcut⟩ := h.leveled.find?_takeWhile b hroot
  exact ⟨f, hfind, (ht.contains_iff h).mp hf, hmem, hcut⟩

lemma ActiveTip.notMem_offChain (hb : b ∈ s.offChain c) : b ∉ s.lineage t := by
  have hneg := mem_takeWhile_imp hb
  rw [Bool.not_eq_true', ← Bool.not_eq_true, ht.contains_iff h] at hneg
  exact hneg

lemma ActiveTip.disconnectTo (hf : f ∈ s.lineage t) : ActiveTip (s.disconnectTo (some f)) f where
  chain := by
    obtain ⟨below, hlineage, hnot, -⟩ := h.eq_append_of_mem hf
    have hsame : SameTree s (s.disconnectTo (some f)) := SameTree.of_entry rfl rfl
    rw [hsame.lineage]
    unfold ChainState.disconnectTo List.rdropWhile
    rw [ht.chain, reverse_reverse, hlineage]
    dsimp only
    congr 1
    rw [dropWhile_append_of_pos]
    · cases hp : (s.entry f).pprev with
      | none => rw [h.lineage_root hp, dropWhile_cons_of_neg (by simp)]
      | some p => rw [h.lineage_step hp, dropWhile_cons_of_neg (by simp)]
    · intro a ha
      rw [decide_eq_true_eq, Ne, Option.some_inj]
      rintro rfl
      exact hnot ha
  mem := h.mem_of_lineage ht.mem hf

end Branch

section Entries

def entryOf (entries : List (Uint256 × CBlockIndex)) (b : Uint256) : CBlockIndex :=
  (entries.lookup b).getD CBlockIndex.null

def ofEntries (entries : List (Uint256 × CBlockIndex)) (chain candidates : List Uint256) : ChainState where
  mapBlockIndex := entries.map Prod.fst
  entry := entryOf entries
  chainActive := chain
  setBlockIndexCandidates := candidates
  mapBlocksUnlinked := []
  nBlockSequenceId := entries.length
  nBlockReverseSequenceId := -1
  nLastPreciousChainwork := 0

/-- An entry stands one above its parent and has more work. -/
def FitsParent (entries : List (Uint256 × CBlockIndex)) (e : CBlockIndex) : Prop :=
  (e.pprev = none → e.nHeight = 0) ∧ ∀ p ∈ e.pprev, p ∈ entries.map Prod.fst ∧
    e.nHeight = (entryOf entries p).nHeight + 1 ∧ (entryOf entries p).nChainWork < e.nChainWork

instance (entries : List (Uint256 × CBlockIndex)) (e : CBlockIndex) : Decidable (FitsParent entries e) :=
  inferInstanceAs (Decidable (_ ∧ _))

lemma fitsParent_entryOf {entries : List (Uint256 × CBlockIndex)} (h : ∀ q ∈ entries, FitsParent entries q.2)
    (b : Uint256) : FitsParent entries (entryOf entries b) := by
  unfold entryOf
  cases hb : entries.lookup b with
  | none => exact ⟨fun _ => rfl, fun p hp => nomatch hp⟩
  | some e =>
    obtain ⟨l₁, l₂, hl, -⟩ := lookup_eq_some_iff.mp hb
    apply h (b, e)
    rw [hl]
    exact mem_append_right _ mem_cons_self

lemma tree_ofEntries {entries : List (Uint256 × CBlockIndex)} {chain candidates : List Uint256}
    (h : ∀ q ∈ entries, FitsParent entries q.2)
    (hroot : ∃ g, ∀ b ∈ entries.map Prod.fst, g ∈ (ofEntries entries chain candidates).lineage b) :
    Tree (ofEntries entries chain candidates) where
  leveled := ⟨fun b hb => (fitsParent_entryOf h b).1 hb, fun b p hp => ((fitsParent_entryOf h b).2 p hp).2.1⟩
  parent_mem b p hp := ((fitsParent_entryOf h b).2 p hp).1
  root := hroot
  work b p hp := ((fitsParent_entryOf h b).2 p hp).2.2

end Entries

end ChainState

end MutableBitcoin
