import MutableBitcoin.BlockDownload
import MutableBitcoin.BlockIndexInvariant
import MutableBitcoin.ChainLocator

/-!
# Which blocks to download next

`ProcessBlockAvailability` and `FindNextBlocksToDownload` of `net_processing.cpp`.
-/

namespace MutableBitcoin
open Lib List Bool

def BLOCK_DOWNLOAD_WINDOW : ℕ := 1024

/-- The index as a tree with its skip pointers. -/
structure SkipPointers (s : ChainState) where
  tree : IndexedTree Uint256
  pprev : tree.pprev = fun b => (s.entry b).pprev
  nHeight : tree.nHeight = fun b => (s.entry b).nHeight

/-- What is known of the blocks of a peer. -/
structure PeerBlocks where
  pindexBestKnownBlock : Option Uint256
  hashLastUnknownBlock : Uint256
  pindexLastCommonBlock : Option Uint256
  fHaveWitness : Bool
deriving DecidableEq

/-- Where a call ends the process. -/
inductive FetchFailure where
  | nullDereference
  | commonAssertion
  | outOfRange
  | endlessLoop
deriving DecidableEq

/-- What the search reads of the node. -/
structure FetchContext where
  nMinimumChainWork : ℕ
  /-- `IsWitnessEnabled` for the block before. -/
  isWitnessEnabled : Option Uint256 → Bool
  /-- The peer of each hash in `mapBlocksInFlight`. -/
  mapBlocksInFlight : Uint256 → Option NodeId

/-- The variables of the search. -/
structure FetchState where
  pindexLastCommonBlock : Option Uint256
  vBlocks : List Uint256
  waitingfor : NodeId
  nodeStaller : NodeId

namespace ChainState

variable (s : ChainState)

/-- `ProcessBlockAvailability`. -/
def processBlockAvailability (state : PeerBlocks) : PeerBlocks :=
  if state.hashLastUnknownBlock.isNull then state
  else if state.hashLastUnknownBlock ∈ s.mapBlockIndex ∧ 0 < (s.entry state.hashLastUnknownBlock).nChainWork then
    let better := match state.pindexBestKnownBlock with
      | none => true
      | some best => decide ((s.entry state.hashLastUnknownBlock).nChainWork ≥ (s.entry best).nChainWork)
    { state with
      pindexBestKnownBlock := if better then some state.hashLastUnknownBlock else state.pindexBestKnownBlock
      hashLastUnknownBlock := BaseBlob.null 32 }
  else state

section Visit

variable (ctx : FetchContext) (nodeid : NodeId) (fHaveWitness : Bool) (count nWindowEnd : ℕ)

/-- The body of the loop over `vToFetch`. The flag says that the function returns. -/
def visit (pindex : Uint256) (st : FetchState) : Bool × FetchState :=
  let e := s.entry pindex
  if !e.nStatus.isValid BLOCK_VALID_TREE then (true, st)
  else if !fHaveWitness && ctx.isWitnessEnabled e.pprev then (true, st)
  else if e.nStatus.haveData || s.contains pindex then
    (false, if e.nChainTx ≠ 0 then { st with pindexLastCommonBlock := some pindex } else st)
  else
    match ctx.mapBlocksInFlight pindex with
    | none =>
      if e.nHeight > nWindowEnd then
        -- the next block would be fetched if the window were one larger
        (true, if st.vBlocks.length = 0 ∧ st.waitingfor ≠ nodeid then { st with nodeStaller := st.waitingfor } else st)
      else
        let st := { st with vBlocks := st.vBlocks ++ [pindex] }
        (decide (st.vBlocks.length = count), st)
    | some peer => (false, if st.waitingfor = -1 then { st with waitingfor := peer } else st)

def visitAll : List Uint256 → FetchState → Bool × FetchState
  | [], st => (false, st)
  | pindex :: vToFetch, st =>
    let r := s.visit ctx nodeid fHaveWitness count nWindowEnd pindex st
    if r.1 then r else visitAll vToFetch r.2

end Visit

/-- `std::max<int>(count - vBlocks.size(), 128)`. The difference has 64 bits, and becomes an `int`. -/
def chunkSize (count size : ℕ) : ℤ := max (Int.bmod ((count : ℤ) - size) (2 ^ 32)) 128

section Fetch

variable {s} (sp : SkipPointers s)

/-- `vToFetch` is filled from the last element on. -/
def fillBack : ℕ → Option Uint256 → List Uint256 → Except FetchFailure (List Uint256)
  | 0, _, vToFetch => .ok vToFetch
  | _ + 1, none, _ => .error .nullDereference
  | n + 1, some pindex, vToFetch => fillBack n (sp.tree.pprev pindex) (pindex :: vToFetch)

/-- The outer loop, within `fuel` iterations. -/
def fetchLoop (ctx : FetchContext) (nodeid : NodeId) (fHaveWitness : Bool) (count nWindowEnd nMaxHeight : ℕ)
    (best : Uint256) : ℕ → Option Uint256 → FetchState → Except FetchFailure FetchState
  | _, none, _ => .error .nullDereference
  | 0, some pindexWalk, st => if (s.entry pindexWalk).nHeight < nMaxHeight then .error .endlessLoop else .ok st
  | fuel + 1, some pindexWalk, st =>
    if (s.entry pindexWalk).nHeight < nMaxHeight then
      let nToFetch : ℤ := min (nMaxHeight - (s.entry pindexWalk).nHeight) (chunkSize count st.vBlocks.length)
      if nToFetch < 1 then .error .outOfRange
      else
        let pindexWalk := sp.tree.getAncestor best ((s.entry pindexWalk).nHeight + nToFetch)
        match fillBack sp nToFetch.toNat pindexWalk [] with
        | .error e => .error e
        | .ok vToFetch =>
          let r := s.visitAll ctx nodeid fHaveWitness count nWindowEnd vToFetch st
          if r.1 then .ok r.2
          else fetchLoop ctx nodeid fHaveWitness count nWindowEnd nMaxHeight best fuel pindexWalk r.2
    else .ok st

/-- `FindNextBlocksToDownload` returns the state of the peer, the blocks and the peer that stalls. -/
def findNextBlocksToDownload (ctx : FetchContext) (nodeid : NodeId) (state : PeerBlocks) (count : ℕ)
    (vBlocks : List Uint256) (nodeStaller : NodeId) : Except FetchFailure (PeerBlocks × List Uint256 × NodeId) :=
  if count = 0 then .ok (state, vBlocks, nodeStaller)
  else
    let state := s.processBlockAvailability state
    match state.pindexBestKnownBlock, s.tip with
    | none, _ => .ok (state, vBlocks, nodeStaller)
    | some _, none => .error .nullDereference
    | some best, some tip =>
      if (s.entry best).nChainWork < (s.entry tip).nChainWork ∨ (s.entry best).nChainWork < ctx.nMinimumChainWork then
        .ok (state, vBlocks, nodeStaller)
      else
        -- a parent of the tip is a guess for the forking point
        let start := state.pindexLastCommonBlock.or
          s.chainActive[min (s.entry best).nHeight (s.chainActive.length - 1)]?
        match start with
        | none => .error .nullDereference
        | some start =>
          match sp.tree.lastCommonAncestor start best with
          | none => .error .commonAssertion
          | some pindexLastCommonBlock =>
            let state := { state with pindexLastCommonBlock := pindexLastCommonBlock }
            if pindexLastCommonBlock = some best then .ok (state, vBlocks, nodeStaller)
            else
              match pindexLastCommonBlock with
              | none => .error .nullDereference
              | some common =>
                let nWindowEnd := (s.entry common).nHeight + BLOCK_DOWNLOAD_WINDOW
                let nMaxHeight := min (s.entry best).nHeight (nWindowEnd + 1)
                match fetchLoop sp ctx nodeid state.fHaveWitness count nWindowEnd nMaxHeight best
                    (nMaxHeight - (s.entry common).nHeight) (some common)
                    ⟨some common, vBlocks, -1, nodeStaller⟩ with
                | .error e => .error e
                | .ok st =>
                  .ok ({ state with pindexLastCommonBlock := st.pindexLastCommonBlock }, st.vBlocks, st.nodeStaller)

end Fetch

section Visits

variable {s} {ctx : FetchContext} {nodeid : NodeId} {fHaveWitness : Bool} {count nWindowEnd : ℕ} {st : FetchState}
  {l l' : List Uint256}

variable (s) in
def missing (ctx : FetchContext) (b : Uint256) : Bool :=
  !(s.entry b).nStatus.haveData && !s.contains b && (ctx.mapBlocksInFlight b).isNone

variable (s) in
def acceptable (ctx : FetchContext) (fHaveWitness : Bool) (b : Uint256) : Bool :=
  (s.entry b).nStatus.isValid BLOCK_VALID_TREE && (fHaveWitness || !ctx.isWitnessEnabled (s.entry b).pprev)

lemma visitAll_append (l l' : List Uint256) (st : FetchState) :
    s.visitAll ctx nodeid fHaveWitness count nWindowEnd (l ++ l') st =
      if (s.visitAll ctx nodeid fHaveWitness count nWindowEnd l st).1 then
        s.visitAll ctx nodeid fHaveWitness count nWindowEnd l st
      else s.visitAll ctx nodeid fHaveWitness count nWindowEnd l' (s.visitAll ctx nodeid fHaveWitness count nWindowEnd l st).2 := by
  induction l generalizing st with
  | nil => exact (if_neg Bool.false_ne_true).symm
  | cons b l ih =>
    rw [cons_append, visitAll, visitAll]
    by_cases hret : (s.visit ctx nodeid fHaveWitness count nWindowEnd b st).1 = true
    · rw [if_pos hret, if_pos hret, if_pos hret]
    · rw [if_neg hret, if_neg hret, ih]

lemma visit_cases (b : Uint256) (st : FetchState) :
    (s.acceptable ctx fHaveWitness b = false ∧ s.visit ctx nodeid fHaveWitness count nWindowEnd b st = (true, st)) ∨
    (s.acceptable ctx fHaveWitness b = true ∧ s.missing ctx b = false ∧
      (s.visit ctx nodeid fHaveWitness count nWindowEnd b st).1 = false ∧
      (s.visit ctx nodeid fHaveWitness count nWindowEnd b st).2.vBlocks = st.vBlocks) ∨
    (s.acceptable ctx fHaveWitness b = true ∧ s.missing ctx b = true ∧ nWindowEnd < (s.entry b).nHeight ∧
      (s.visit ctx nodeid fHaveWitness count nWindowEnd b st).1 = true ∧
      (s.visit ctx nodeid fHaveWitness count nWindowEnd b st).2.vBlocks = st.vBlocks) ∨
    (s.acceptable ctx fHaveWitness b = true ∧ s.missing ctx b = true ∧ (s.entry b).nHeight ≤ nWindowEnd ∧
      (s.visit ctx nodeid fHaveWitness count nWindowEnd b st).1 = decide ((st.vBlocks ++ [b]).length = count) ∧
      (s.visit ctx nodeid fHaveWitness count nWindowEnd b st).2.vBlocks = st.vBlocks ++ [b]) := by
  unfold visit acceptable missing
  dsimp only
  cases hvalid : (s.entry b).nStatus.isValid BLOCK_VALID_TREE with
  | false => exact Or.inl ⟨rfl, rfl⟩
  | true =>
    by_cases hrefused : (!fHaveWitness && ctx.isWitnessEnabled (s.entry b).pprev) = true
    · rw [if_neg (by decide), if_pos hrefused]
      refine Or.inl ⟨?_, rfl⟩
      rw [and_eq_true, not_eq_true'] at hrefused
      rw [hrefused.1, hrefused.2]
      rfl
    · have haccept : (true && (fHaveWitness || !ctx.isWitnessEnabled (s.entry b).pprev)) = true := by
        revert hrefused
        cases fHaveWitness <;> cases ctx.isWitnessEnabled (s.entry b).pprev <;> decide
      rw [if_neg (by decide), if_neg hrefused, haccept]
      right
      by_cases hthere : ((s.entry b).nStatus.haveData || s.contains b) = true
      · rw [if_pos hthere, ← Bool.not_or, hthere]
        refine Or.inl ⟨rfl, rfl, rfl, ?_⟩
        dsimp only
        split_ifs <;> rfl
      · rw [if_neg hthere, ← Bool.not_or, Bool.eq_false_of_not_eq_true hthere]
        cases hflight : ctx.mapBlocksInFlight b with
        | none =>
          right
          dsimp only
          by_cases hwindow : (s.entry b).nHeight > nWindowEnd
          · rw [if_pos hwindow]
            refine Or.inl ⟨rfl, rfl, hwindow, rfl, ?_⟩
            dsimp only
            split_ifs <;> rfl
          · rw [if_neg hwindow]
            exact Or.inr ⟨rfl, rfl, not_lt.mp hwindow, rfl, rfl⟩
        | some peer =>
          refine Or.inl ⟨rfl, rfl, rfl, ?_⟩
          dsimp only
          split_ifs <;> rfl

lemma visitAll_vBlocks (hrise : l.Pairwise (fun a b => (s.entry a).nHeight < (s.entry b).nHeight))
    (hlen : st.vBlocks.length < count) :
    (s.visitAll ctx nodeid fHaveWitness count nWindowEnd l st).2.vBlocks = (st.vBlocks ++
      (l.takeWhile (s.acceptable ctx fHaveWitness)).filter
        (fun b => s.missing ctx b && decide ((s.entry b).nHeight ≤ nWindowEnd))).take count ∧
    ((s.visitAll ctx nodeid fHaveWitness count nWindowEnd l st).1 = false →
      (s.visitAll ctx nodeid fHaveWitness count nWindowEnd l st).2.vBlocks.length < count) := by
  have hstay : ∀ blocks : List Uint256, blocks = [] → st.vBlocks = (st.vBlocks ++ blocks).take count := by
    rintro _ rfl
    rw [append_nil, take_of_length_le hlen.le]
  induction l generalizing st with
  | nil => exact ⟨hstay _ rfl, fun _ => hlen⟩
  | cons b l ih =>
    obtain ⟨habove, hrise⟩ := pairwise_cons.mp hrise
    have hnext : ∀ st' : FetchState, st'.vBlocks.length < count →
        ∀ blocks : List Uint256, blocks = [] → st'.vBlocks = (st'.vBlocks ++ blocks).take count := by
      rintro st' hlen' _ rfl
      rw [append_nil, take_of_length_le hlen'.le]
    rw [visitAll]
    rcases @visit_cases s ctx nodeid fHaveWitness count nWindowEnd b st with ⟨hacc, hvisit⟩ |
      ⟨hacc, hmiss, hret, hblocks⟩ | ⟨hacc, hmiss, hfar, hret, hblocks⟩ | ⟨hacc, hmiss, hnear, hret, hblocks⟩
    · rw [hvisit, if_pos rfl, takeWhile_cons_of_neg (by rw [hacc]; exact false_ne_true)]
      exact ⟨hstay _ rfl, fun h => (nomatch h)⟩
    · rw [hret, if_neg Bool.false_ne_true, takeWhile_cons_of_pos hacc,
        filter_cons_of_neg (by rw [hmiss]; exact false_ne_true)]
      rw [← hblocks] at hlen ⊢
      exact ih hrise hlen (hnext _ hlen)
    · rw [if_pos hret, hblocks, takeWhile_cons_of_pos hacc]
      refine ⟨hstay _ (filter_eq_nil_iff.mpr ?_), fun h => absurd (hret.symm.trans h) (by decide)⟩
      intro c hc hcond
      rw [and_eq_true, decide_eq_true_eq] at hcond
      rcases mem_cons.mp hc with rfl | hc
      · omega
      · have := habove c ((takeWhile_sublist _).subset hc)
        omega
    · rw [takeWhile_cons_of_pos hacc, filter_cons_of_pos (by rw [hmiss, decide_eq_true hnear]; rfl),
        append_cons, ← hblocks]
      rw [length_append, length_singleton] at hret
      have hlen' := congrArg List.length hblocks
      rw [length_append, length_singleton] at hlen'
      by_cases hfull : st.vBlocks.length + 1 = count
      · rw [if_pos (hret.trans (decide_eq_true hfull)), take_left' (by omega)]
        exact ⟨rfl, fun h => absurd (hret.symm.trans h) (by rw [decide_eq_true hfull]; decide)⟩
      · rw [if_neg (by rw [hret]; exact (decide_eq_false hfull ▸ false_ne_true))]
        have hless : (s.visit ctx nodeid fHaveWitness count nWindowEnd b st).2.vBlocks.length < count := by omega
        exact ih hrise hless (hnext _ hless)

lemma visitAll_lastCommon {P : Uint256 → Prop} (hl : ∀ b ∈ l, (s.entry b).nChainTx ≠ 0 → P b)
    (hst : ∀ b, st.pindexLastCommonBlock = some b → P b) :
    ∀ b, (s.visitAll ctx nodeid fHaveWitness count nWindowEnd l st).2.pindexLastCommonBlock = some b → P b := by
  induction l generalizing st with
  | nil => exact hst
  | cons c l ih =>
    rw [forall_mem_cons] at hl
    have hvisit : ∀ b, (s.visit ctx nodeid fHaveWitness count nWindowEnd c st).2.pindexLastCommonBlock = some b → P b := by
      intro b hb
      unfold visit at hb
      dsimp only at hb
      by_cases hlinked : (s.entry c).nChainTx ≠ 0
      · rw [if_pos hlinked] at hb
        cases hflight : ctx.mapBlocksInFlight c <;> rw [hflight] at hb <;> dsimp only at hb <;> split_ifs at hb <;>
          first
          | exact hst b hb
          | exact Option.some.inj hb ▸ hl.1 hlinked
      · rw [if_neg hlinked] at hb
        cases hflight : ctx.mapBlocksInFlight c <;> rw [hflight] at hb <;> dsimp only at hb <;> split_ifs at hb <;>
          exact hst b hb
    rw [visitAll]
    split_ifs
    · exact hvisit
    · exact ih hl.2 hvisit

end Visits

section Walk

variable {s} {sp : SkipPointers s} {ctx : FetchContext} {nodeid : NodeId} {fHaveWitness : Bool}
  {count nWindowEnd nMaxHeight : ℕ} {best a w : Uint256} {st : FetchState}

lemma lineage_skipPointers (sp : SkipPointers s) (b : Uint256) : sp.tree.lineage b = s.lineage b := by
  show Lib.lineage sp.tree.pprev sp.tree.nHeight b = _
  rw [sp.pprev, sp.nHeight]
  rfl

lemma nHeight_skipPointers (sp : SkipPointers s) (b : Uint256) : sp.tree.nHeight b = (s.entry b).nHeight :=
  congrFun sp.nHeight b

variable (s) in
def path (b : Uint256) : List Uint256 := (s.lineage b).reverse

lemma Tree.getElem?_path (hs : Tree s) {n : ℕ} : (s.path best)[n]? = some a ↔ a ∈ s.lineage best ∧ (s.entry a).nHeight = n :=
  hs.leveled.getElem?_reverse best

lemma Tree.length_path (hs : Tree s) (b : Uint256) : (s.path b).length = (s.entry b).nHeight + 1 := by
  rw [path, length_reverse]
  exact hs.leveled.length_lineage b

lemma fillBack_eq (hs : Tree s) {n : ℕ} (hn : n ≤ (s.entry a).nHeight + 1) (acc : List Uint256) :
    fillBack sp n (some a) acc = .ok ((s.path a).drop ((s.entry a).nHeight + 1 - n) ++ acc) := by
  induction n generalizing a acc with
  | zero =>
    rw [Nat.sub_zero, drop_of_length_le (hs.length_path a).le]
    rfl
  | succ n ih =>
    rw [fillBack, congrFun sp.pprev a]
    cases hp : (s.entry a).pprev with
    | none =>
      have hroot := hs.leveled.root a hp
      obtain rfl : n = 0 := by omega
      rw [hroot, path, hs.lineage_root hp]
      rfl
    | some p =>
      have hstep := hs.leveled.step a p hp
      have hpath : s.path a = s.path p ++ [a] := by
        rw [path, hs.lineage_step hp, reverse_cons]
        rfl
      rw [ih (by omega), hpath, drop_append_of_le_length (by rw [hs.length_path]; omega),
        append_assoc, show (s.entry a).nHeight + 1 - (n + 1) = (s.entry p).nHeight + 1 - n by omega]
      rfl

lemma fillBack_ancestor (sp : SkipPointers s) (hs : Tree s) (h n : ℕ) (hle : h + n ≤ (s.entry best).nHeight) :
    ∃ a, sp.tree.getAncestor best (h + n : ℕ) = some a ∧ (s.path best)[h + n]? = some a ∧
      fillBack sp n (some a) [] = .ok (((s.path best).drop (h + 1)).take n) := by
  obtain ⟨a, ha⟩ := sp.tree.exists_getAncestor (p := best) (show (0 : ℤ) ≤ (h + n : ℕ) by omega)
    (by rw [nHeight_skipPointers]; omega)
  obtain ⟨hmem, hheight⟩ := sp.tree.getAncestor_mem ha
  rw [lineage_skipPointers] at hmem
  rw [nHeight_skipPointers] at hheight
  have hheight : (s.entry a).nHeight = h + n := by exact_mod_cast hheight
  refine ⟨a, ha, hs.getElem?_path.mpr ⟨hmem, hheight⟩, ?_⟩
  obtain ⟨below, hbelow, -⟩ := hs.eq_append_of_mem hmem
  have hpath : s.path best = s.path a ++ below.reverse := by
    rw [path, hbelow, reverse_append]
    rfl
  have hlen := hs.length_path a
  rw [fillBack_eq hs (by omega), append_nil, hpath, drop_append_of_le_length (by omega),
    show (s.entry a).nHeight + 1 - n = h + 1 by omega, take_left' (by rw [length_drop]; omega)]

lemma chunkSize_pos (count size : ℕ) : 0 < chunkSize count size := by
  unfold chunkSize
  omega

lemma fetchLoop_eq (hs : Tree s) (hbest : nMaxHeight ≤ (s.entry best).nHeight) {fuel h : ℕ}
    (hw : (s.path best)[h]? = some w) (hfuel : nMaxHeight ≤ h + fuel) :
    fetchLoop sp ctx nodeid fHaveWitness count nWindowEnd nMaxHeight best fuel (some w) st =
      .ok (s.visitAll ctx nodeid fHaveWitness count nWindowEnd (((s.path best).drop (h + 1)).take (nMaxHeight - h)) st).2 := by
  induction fuel generalizing h w st with
  | zero =>
    have hheight := (hs.getElem?_path.mp hw).2
    rw [fetchLoop, if_neg (by omega), Nat.sub_eq_zero_of_le (by omega)]
    rfl
  | succ fuel ih =>
    have hheight := (hs.getElem?_path.mp hw).2
    rw [fetchLoop, hheight]
    by_cases hend : h < nMaxHeight
    · obtain ⟨n, hn⟩ : ∃ n : ℕ, min ((nMaxHeight : ℤ) - h) (chunkSize count st.vBlocks.length) = n :=
        ⟨_, (Int.toNat_of_nonneg (by have := chunkSize_pos count st.vBlocks.length; omega)).symm⟩
      have hpos := chunkSize_pos count st.vBlocks.length
      obtain ⟨a, hancestor, ha, hfill⟩ := fillBack_ancestor sp hs h n (show h + n ≤ (s.entry best).nHeight by omega)
      rw [if_pos hend]
      dsimp only
      rw [hn, if_neg (by omega), Int.toNat_natCast, ← Nat.cast_add, hancestor, hfill]
      have hsplit : ((s.path best).drop (h + 1)).take (nMaxHeight - h) = ((s.path best).drop (h + 1)).take n ++
          ((s.path best).drop (h + n + 1)).take (nMaxHeight - (h + n)) := by
        rw [show nMaxHeight - h = n + (nMaxHeight - (h + n)) by omega, take_add, drop_drop,
          show h + 1 + n = h + n + 1 by omega]
      rw [hsplit, visitAll_append]
      dsimp only
      split_ifs
      · rfl
      · exact ih ha (by omega)
    · rw [if_neg hend, Nat.sub_eq_zero_of_le (by omega)]
      rfl

end Walk

section Exact

variable {s} {tip best common : Uint256} {state : PeerBlocks} {count : ℕ}

/-- The active chain and all linked blocks have their transactions. -/
structure Linked (s : ChainState) (tip : Uint256) : Prop where
  tree : Tree s
  active : ActiveTip s tip
  chain : ∀ a ∈ s.lineage tip, (s.entry a).nChainTx ≠ 0
  linked : ∀ b ∈ s.mapBlockIndex, (s.entry b).nChainTx ≠ 0 → ∀ a ∈ s.lineage b,
    (s.entry a).nChainTx ≠ 0 ∧ (s.entry a).nStatus.haveData = true

/-- The blocks of a peer are in the index. -/
structure PeerLinked (s : ChainState) (state : PeerBlocks) : Prop where
  best : ∀ b, state.pindexBestKnownBlock = some b → b ∈ s.mapBlockIndex
  common : ∀ b, state.pindexLastCommonBlock = some b → b ∈ s.mapBlockIndex ∧ (s.entry b).nChainTx ≠ 0

lemma PeerLinked.processBlockAvailability (h : PeerLinked s state) : PeerLinked s (s.processBlockAvailability state) := by
  unfold ChainState.processBlockAvailability
  split_ifs with hnull hknown
  · exact h
  · refine ⟨fun b hb => ?_, h.common⟩
    dsimp only at hb
    split_ifs at hb
    · obtain rfl := Option.some.inj hb
      exact hknown.1
    · exact h.best b hb
  · exact h

/-- The blocks on the way to the best known one that the window and the peer allow to fetch, the common block being the
last one that is linked. -/
def blocksToFetch (s : ChainState) (ctx : FetchContext) (fHaveWitness : Bool) (common best : Uint256) : List Uint256 :=
  ((s.path best).takeWhile (fun b => decide ((s.entry b).nHeight ≤ (s.entry common).nHeight) ||
    (s.acceptable ctx fHaveWitness b &&
      decide ((s.entry b).nHeight ≤ (s.entry common).nHeight + BLOCK_DOWNLOAD_WINDOW)))).filter (s.missing ctx)

lemma filter_takeWhile_eq {accept miss : Uint256 → Bool} {bound : ℕ} {l : List Uint256} {h k : ℕ}
    (hl : ∀ i b, l[i]? = some b → (s.entry b).nHeight = h + 1 + i) (hk : min l.length (bound + 1 - h) ≤ k) :
    ((l.take k).takeWhile accept).filter (fun b => miss b && decide ((s.entry b).nHeight ≤ bound)) =
      (l.takeWhile (fun b => accept b && decide ((s.entry b).nHeight ≤ bound))).filter miss := by
  induction l generalizing h k with
  | nil => rw [take_nil]; rfl
  | cons b l ih =>
    have hb := hl 0 b rfl
    have htail : ∀ i c, l[i]? = some c → (s.entry c).nHeight = h + 1 + 1 + i := by
      intro i c hc
      rw [hl (i + 1) c hc]
      omega
    rw [length_cons] at hk
    by_cases hbound : (s.entry b).nHeight ≤ bound
    · obtain ⟨k, rfl⟩ : ∃ k', k = k' + 1 := ⟨k - 1, by omega⟩
      rw [take_succ_cons]
      cases hacc : accept b with
      | false =>
        rw [takeWhile_cons_of_neg (by rw [hacc]; decide),
          takeWhile_cons_of_neg (by rw [hacc, Bool.false_and]; decide)]
        rfl
      | true =>
        rw [takeWhile_cons_of_pos hacc, takeWhile_cons_of_pos (by rw [hacc, decide_eq_true hbound]; rfl),
          filter_cons, filter_cons, ih htail (by omega), decide_eq_true hbound, Bool.and_true]
    · rw [takeWhile_cons_of_neg (by rw [decide_eq_false hbound, Bool.and_false]; decide), filter_nil,
        filter_eq_nil_iff]
      intro c hc hcond
      rw [and_eq_true, decide_eq_true_eq] at hcond
      obtain ⟨i, hi⟩ := mem_iff_getElem?.mp ((take_sublist _ _).subset ((takeWhile_sublist _).subset hc))
      have := hl i c hi
      omega

lemma takeWhile_congr_of_mem {f g : Uint256 → Bool} {l : List Uint256} (h : ∀ b ∈ l, f b = g b) :
    l.takeWhile f = l.takeWhile g := by
  induction l with
  | nil => rfl
  | cons b l ih =>
    rw [forall_mem_cons] at h
    rw [takeWhile_cons, takeWhile_cons, h.1, ih h.2]

lemma blocksToFetch_eq (ctx : FetchContext) (hs : Linked s tip) (hbest : best ∈ s.mapBlockIndex) (hmem : common ∈ s.lineage best)
    (hlinked : (s.entry common).nChainTx ≠ 0) (fHaveWitness : Bool) :
    blocksToFetch s ctx fHaveWitness common best =
      (((s.path best).drop ((s.entry common).nHeight + 1)).takeWhile (fun b => s.acceptable ctx fHaveWitness b &&
        decide ((s.entry b).nHeight ≤ (s.entry common).nHeight + BLOCK_DOWNLOAD_WINDOW))).filter (s.missing ctx) := by
  obtain ⟨below, hbelow, -⟩ := hs.tree.eq_append_of_mem hmem
  have hpath : s.path best = s.path common ++ below.reverse := by
    rw [path, hbelow, reverse_append]
    rfl
  have hlen := hs.tree.length_path common
  have hdrop : (s.path best).drop ((s.entry common).nHeight + 1) = below.reverse := by
    rw [hpath, drop_left' hlen]
  have hcommon : common ∈ s.mapBlockIndex := hs.tree.mem_of_lineage hbest hmem
  have hin : ∀ b ∈ s.path common, decide ((s.entry b).nHeight ≤ (s.entry common).nHeight) = true := by
    intro b hb
    exact decide_eq_true (hs.tree.leveled.depth_le (mem_reverse.mp hb))
  have habove : ∀ b ∈ below.reverse, decide ((s.entry b).nHeight ≤ (s.entry common).nHeight) = false := by
    intro b hb
    rw [← hdrop] at hb
    obtain ⟨i, hi⟩ := mem_iff_getElem?.mp hb
    rw [getElem?_drop] at hi
    have := (hs.tree.getElem?_path.mp hi).2
    exact decide_eq_false (by omega)
  have hnone : (s.path common).filter (s.missing ctx) = [] := by
    rw [filter_eq_nil_iff]
    intro b hb
    rw [missing, (hs.linked common hcommon hlinked b (mem_reverse.mp hb)).2]
    exact false_ne_true
  rw [blocksToFetch, hdrop, hpath, takeWhile_append_of_pos (fun b hb => by rw [hin b hb]; rfl), filter_append,
    hnone, nil_append]
  rw [takeWhile_congr_of_mem (fun b hb => by rw [habove b hb, Bool.false_or])]

/-- What the call is right to return, for the state of the peer after `ProcessBlockAvailability`: a peer without a block of
at least as much work as the tip, and as the minimum, gives nothing. Otherwise the blocks are the first ones on the way to
the best known block that are missing, up to the window and the first block that is refused. -/
structure Fetched (sp : SkipPointers s) (ctx : FetchContext) (tip : Uint256) (state : PeerBlocks) (count : ℕ)
    (state' : PeerBlocks) (vBlocks : List Uint256) : Prop where
  kept : PeerLinked s state'
  unknown : state.pindexBestKnownBlock = none → vBlocks = []
  worse : ∀ best, state.pindexBestKnownBlock = some best →
    (s.entry best).nChainWork < (s.entry tip).nChainWork ∨ (s.entry best).nChainWork < ctx.nMinimumChainWork → vBlocks = []
  exact : ∀ best, state.pindexBestKnownBlock = some best →
    ¬((s.entry best).nChainWork < (s.entry tip).nChainWork ∨ (s.entry best).nChainWork < ctx.nMinimumChainWork) →
    ∃ start common, state.pindexLastCommonBlock.or
        s.chainActive[min (s.entry best).nHeight (s.chainActive.length - 1)]? = some start ∧
      sp.tree.HighestCommon start best common ∧
      vBlocks = (blocksToFetch s ctx state.fHaveWitness common best).take count

lemma exists_start (hs : Linked s tip) (hstate : PeerLinked s state) (best : Uint256) :
    ∃ start, state.pindexLastCommonBlock.or
        s.chainActive[min (s.entry best).nHeight (s.chainActive.length - 1)]? = some start ∧ start ∈ s.mapBlockIndex ∧
      (s.entry start).nChainTx ≠ 0 := by
  cases hlast : state.pindexLastCommonBlock with
  | some start => exact ⟨start, rfl, hstate.common start hlast⟩
  | none =>
    have hlen : s.chainActive.length = (s.entry tip).nHeight + 1 := by
      rw [hs.active.chain]
      exact hs.tree.length_path tip
    have hin : min (s.entry best).nHeight (s.chainActive.length - 1) < s.chainActive.length := by omega
    obtain ⟨start, hget⟩ : ∃ start, s.chainActive[min (s.entry best).nHeight (s.chainActive.length - 1)]? = some start :=
      ⟨_, getElem?_eq_getElem hin⟩
    have hlineage : start ∈ s.lineage tip := by
      have hmem := mem_of_getElem? hget
      rwa [hs.active.chain, mem_reverse] at hmem
    exact ⟨start, hget, hs.tree.mem_of_lineage hs.active.mem hlineage, hs.chain start hlineage⟩

lemma exists_common (sp : SkipPointers s) (hs : Linked s tip) {start best : Uint256} (hstart : start ∈ s.mapBlockIndex)
    (hbest : best ∈ s.mapBlockIndex) :
    ∃ common, sp.tree.lastCommonAncestor start best = some (some common) ∧ sp.tree.HighestCommon start best common ∧
      common ∈ s.lineage start ∧ common ∈ s.lineage best := by
  obtain ⟨r, hrun, hr⟩ := IndexedTree.lastCommonAncestor_spec (t := sp.tree) start best
  obtain ⟨g, hg⟩ := hs.tree.root
  cases r with
  | none =>
    refine absurd ((hr g).mpr ?_) not_mem_nil
    rw [lineage_skipPointers, lineage_skipPointers]
    exact ⟨hg start hstart, hg best hbest⟩
  | some common =>
    have hcommon := (hr common).mp (sp.tree.leveled.self_mem common)
    refine ⟨common, hrun, ⟨hcommon, fun c hc hc' => sp.tree.leveled.depth_le ((hr c).mpr ⟨hc, hc'⟩)⟩, ?_⟩
    rwa [lineage_skipPointers, lineage_skipPointers] at hcommon

/-- The download is exact, whatever blocks are in flight and however many are asked for. The walk ends without a failure and
keeps the last common block linked. -/
theorem findNextBlocksToDownload_exact (sp : SkipPointers s) (hs : Linked s tip) (hstate : PeerLinked s state)
    (ctx : FetchContext) (nodeid : NodeId) (hcount : 0 < count) (nodeStaller : NodeId) :
    ∃ state' vBlocks nodeStaller',
      findNextBlocksToDownload sp ctx nodeid state count [] nodeStaller = .ok (state', vBlocks, nodeStaller') ∧
      Fetched sp ctx tip (s.processBlockAvailability state) count state' vBlocks := by
  have hstate := hstate.processBlockAvailability
  rw [findNextBlocksToDownload, if_neg (by omega), hs.active.tip hs.tree]
  dsimp only
  generalize s.processBlockAvailability state = state at hstate
  cases hbest : state.pindexBestKnownBlock with
  | none =>
    refine ⟨state, [], nodeStaller, rfl, hstate, fun _ => rfl, fun best h => ?_, fun best h => ?_⟩
    · exact nomatch hbest.symm.trans h
    · exact nomatch hbest.symm.trans h
  | some best =>
    dsimp only
    have hunknown : ∀ vBlocks : List Uint256, state.pindexBestKnownBlock = none → vBlocks = [] :=
      fun _ h => (nomatch hbest.symm.trans h)
    by_cases hless : (s.entry best).nChainWork < (s.entry tip).nChainWork ∨
        (s.entry best).nChainWork < ctx.nMinimumChainWork
    · rw [if_pos hless]
      refine ⟨state, [], nodeStaller, rfl, hstate, hunknown _, fun _ _ _ => rfl, fun best' h hnot => ?_⟩
      obtain rfl := Option.some.inj (hbest.symm.trans h)
      exact absurd hless hnot
    rw [if_neg hless]
    have hmem := hstate.best best hbest
    obtain ⟨start, hstart, hstartMem, hstartLinked⟩ := exists_start hs hstate best
    obtain ⟨common, hrun, hhighest, hcommonStart, hcommonBest⟩ := exists_common sp hs hstartMem hmem
    rw [hstart]
    dsimp only
    rw [hrun]
    dsimp only
    have hcommonMem := hs.tree.mem_of_lineage hmem hcommonBest
    have hcommonLinked := (hs.linked start hstartMem hstartLinked common hcommonStart).1
    have hfetched : ∀ state' vBlocks, PeerLinked s state' →
        vBlocks = (blocksToFetch s ctx state.fHaveWitness common best).take count →
        Fetched sp ctx tip state count state' vBlocks := by
      refine fun state' vBlocks hkept hblocks => ⟨hkept, hunknown _, fun best' h hworse => ?_, fun best' h _ => ?_⟩
      · obtain rfl := Option.some.inj (hbest.symm.trans h)
        exact absurd hworse hless
      · obtain rfl := Option.some.inj (hbest.symm.trans h)
        exact ⟨start, common, hstart, hhighest, hblocks⟩
    have hrest := blocksToFetch_eq ctx hs hmem hcommonBest hcommonLinked state.fHaveWitness
    have hlen := hs.tree.length_path best
    by_cases hsame : some common = some best
    · rw [if_pos hsame]
      obtain rfl := Option.some.inj hsame
      refine ⟨_, _, _, rfl, hfetched _ _ ⟨fun b hb => hstate.best b (hbest.trans hb), fun b hb => ?_⟩ ?_⟩
      · obtain rfl := Option.some.inj hb
        exact ⟨hmem, hcommonLinked⟩
      · rw [hrest, drop_of_length_le hlen.le]
        exact (take_nil).symm
    · rw [if_neg hsame]
      have hw := hs.tree.getElem?_path.mpr ⟨hcommonBest, rfl⟩
      have hle : (s.entry common).nHeight ≤ (s.entry best).nHeight := hs.tree.leveled.depth_le hcommonBest
      rw [fetchLoop_eq hs.tree (min_le_left _ _) hw (by omega)]
      refine ⟨_, _, _, rfl, hfetched _ _ ⟨fun b hb => hstate.best b (hbest.trans hb), ?_⟩ ?_⟩
      · refine visitAll_lastCommon (fun b hb hlinked => ⟨?_, hlinked⟩) (fun b hb => ?_)
        · have hpath := (drop_sublist _ _).subset ((take_sublist _ _).subset hb)
          exact hs.tree.mem_of_lineage hmem (mem_reverse.mp hpath)
        · obtain rfl := Option.some.inj hb
          exact ⟨hcommonMem, hcommonLinked⟩
      · have hheights : ∀ i b, ((s.path best).drop ((s.entry common).nHeight + 1))[i]? = some b →
            (s.entry b).nHeight = (s.entry common).nHeight + 1 + i := by
          intro i b hb
          rw [getElem?_drop] at hb
          exact (hs.tree.getElem?_path.mp hb).2
        have hrise : (((s.path best).drop ((s.entry common).nHeight + 1)).take
            (min (s.entry best).nHeight ((s.entry common).nHeight + BLOCK_DOWNLOAD_WINDOW + 1) -
              (s.entry common).nHeight)).Pairwise (fun a b => (s.entry a).nHeight < (s.entry b).nHeight) := by
          refine List.Pairwise.sublist (take_sublist _ _) (pairwise_iff_getElem.mpr fun i j hi hj hij => ?_)
          rw [hheights i _ (getElem?_eq_getElem hi), hheights j _ (getElem?_eq_getElem hj)]
          omega
        rw [(visitAll_vBlocks hrise hcount).1, hrest, nil_append]
        rw [filter_takeWhile_eq hheights]
        rw [length_drop]
        omega

def SkipPointers.ofTree (hs : Tree s) : SkipPointers s where
  tree := IndexedTree.ofLeveled (fun b => (s.entry b).pprev) (fun b => (s.entry b).nHeight) hs.leveled
  pprev := rfl
  nHeight := rfl

def headerEntry (pprev : Option Uint256) (nHeight nChainWork : ℕ) : CBlockIndex :=
  { blockEntry pprev nHeight nChainWork 0 with
    nTx := 0
    nChainTx := 0
    nStatus := ⟨BLOCK_VALID_TREE, false, false, false, false, false⟩ }

def headersIndex : ChainState :=
  ofEntries
    [(blockHash 1, blockEntry none 0 1 0), (blockHash 2, blockEntry (some (blockHash 1)) 1 2 1),
      (blockHash 3, headerEntry (some (blockHash 1)) 1 2), (blockHash 4, headerEntry (some (blockHash 3)) 2 3)]
    [blockHash 1, blockHash 2] [blockHash 2]

lemma linked_headersIndex : Linked headersIndex (blockHash 2) where
  tree := tree_ofEntries (by decide) ⟨blockHash 1, by decide⟩
  active := ⟨by decide, by decide⟩
  chain := by decide
  linked := by decide

def peerWithBest (best : Uint256) : PeerBlocks := ⟨some best, BaseBlob.null 32, none, true⟩

lemma peerLinked_peerWithBest {best : Uint256} (h : best ∈ headersIndex.mapBlockIndex) :
    PeerLinked headersIndex (peerWithBest best) where
  best _ hb := Option.some.inj hb ▸ h
  common _ hb := nomatch hb

def downloadContext (nMinimumChainWork : ℕ) : FetchContext := ⟨nMinimumChainWork, fun _ => false, fun _ => none⟩

theorem findNextBlocksToDownload_exact_headersIndex :
    blocksToFetch headersIndex (downloadContext 0) true (blockHash 1) (blockHash 4) = [blockHash 3, blockHash 4] ∧
      ∃ state' vBlocks nodeStaller',
        findNextBlocksToDownload (SkipPointers.ofTree linked_headersIndex.tree) (downloadContext 0) 0
          (peerWithBest (blockHash 4)) 16 [] (-1) = .ok (state', vBlocks, nodeStaller') ∧
        Fetched (SkipPointers.ofTree linked_headersIndex.tree) (downloadContext 0) (blockHash 2)
          (headersIndex.processBlockAvailability (peerWithBest (blockHash 4))) 16 state' vBlocks :=
  ⟨by decide, findNextBlocksToDownload_exact _ linked_headersIndex (peerLinked_peerWithBest (by decide)) _ 0 (by decide) (-1)⟩

/-- A better branch with less work than the minimum is left alone, and a branch with just the work of the tip is fetched. -/
theorem findNextBlocksToDownload_fails :
    (findNextBlocksToDownload (SkipPointers.ofTree linked_headersIndex.tree) (downloadContext 100) 0
        (peerWithBest (blockHash 4)) 16 [] (-1) = .ok (peerWithBest (blockHash 4), [], -1) ∧
      blocksToFetch headersIndex (downloadContext 100) true (blockHash 1) (blockHash 4) = [blockHash 3, blockHash 4] ∧
      (headersIndex.entry (blockHash 2)).nChainWork < (headersIndex.entry (blockHash 4)).nChainWork) ∧
    (findNextBlocksToDownload (SkipPointers.ofTree linked_headersIndex.tree) (downloadContext 0) 0
        (peerWithBest (blockHash 3)) 16 [] (-1) =
        .ok ({ peerWithBest (blockHash 3) with pindexLastCommonBlock := some (blockHash 1) }, [blockHash 3], -1) ∧
      (headersIndex.entry (blockHash 3)).nChainWork = (headersIndex.entry (blockHash 2)).nChainWork) := by
  refine ⟨⟨rfl, by decide, by decide⟩, ?_, by decide⟩
  decide +kernel

end Exact

end ChainState

end MutableBitcoin
