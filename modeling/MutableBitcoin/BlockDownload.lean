import MutableBitcoin.Uint256
import MutableBitcoin.Lib.FinmapCount

/-!
# Blocks in flight

`InitializeNode`, `FinalizeNode`, `MarkBlockAsReceived`, `MarkBlockAsInFlight` and `UpdatePreferredDownload` of
`net_processing.cpp`. An element of a `std::list` keeps its place in memory while others come and go, so an iterator
is a number that only this element has.
-/

namespace MutableBitcoin
open Lib List

abbrev NodeId := ℤ

/-- A block in flight. -/
structure QueuedBlock where
  hash : Uint256
  fValidatedHeaders : Bool
deriving DecidableEq

/-- The fields of a peer's state that the download uses. -/
structure CNodeState where
  fCurrentlyConnected : Bool
  nMisbehavior : ℤ
  fSyncStarted : Bool
  nStallingSince : ℤ
  vBlocksInFlight : List (ℕ × QueuedBlock)
  nDownloadingSince : ℤ
  nBlocksInFlight : ℤ
  nBlocksInFlightValidHeaders : ℤ
  fPreferredDownload : Bool

def CNodeState.init : CNodeState := ⟨false, 0, false, 0, [], 0, 0, 0, false⟩

/-- What `MarkBlockAsReceived` does to the state of the peer. -/
def CNodeState.receive (state : CNodeState) (it : ℕ) (entry : QueuedBlock) (now : ℤ) : CNodeState :=
  { state with
    nBlocksInFlightValidHeaders := state.nBlocksInFlightValidHeaders - entry.fValidatedHeaders.toNat
    nDownloadingSince :=
      if (state.vBlocksInFlight.head?.map Prod.fst) = some it then max state.nDownloadingSince now
      else state.nDownloadingSince
    vBlocksInFlight := state.vBlocksInFlight.filter (fun q => q.1 ≠ it)
    nBlocksInFlight := state.nBlocksInFlight - 1
    nStallingSince := 0 }

/-- What `MarkBlockAsInFlight` does to the state of the peer. -/
def CNodeState.queue (state : CNodeState) (it : ℕ) (entry : QueuedBlock) (now : ℤ) : CNodeState :=
  { state with
    vBlocksInFlight := state.vBlocksInFlight ++ [(it, entry)]
    nBlocksInFlight := state.nBlocksInFlight + 1
    nBlocksInFlightValidHeaders := state.nBlocksInFlightValidHeaders + entry.fValidatedHeaders.toNat
    nDownloadingSince := if state.nBlocksInFlight + 1 = 1 then now else state.nDownloadingSince }

/-- The states of the peers, the blocks in flight and the global counters. -/
structure DownloadState where
  mapNodeState : Finmap (fun _ : NodeId => CNodeState)
  mapBlocksInFlight : Finmap (fun _ : Uint256 => NodeId × ℕ)
  nPeersWithValidatedDownloads : ℤ
  nPreferredDownload : ℤ
  nSyncStarted : ℤ
  /-- The place of the next element of a list. -/
  nextIterator : ℕ

/-- Where a call ends the process. -/
inductive DownloadFailure where
  | nullDereference
  | invalidIterator
  | stateAssertion
  | blocksInFlightAssertion
  | preferredDownloadAssertion
  | validatedDownloadsAssertion
deriving DecidableEq

namespace DownloadState

def init : DownloadState := ⟨∅, ∅, 0, 0, 0, 0⟩

section Calls

variable (s : DownloadState)

/-- `InitializeNode`, up to the version message. -/
def initializeNode (nodeid : NodeId) : DownloadState :=
  if nodeid ∈ s.mapNodeState then s
  else { s with mapNodeState := s.mapNodeState.insert nodeid CNodeState.init }

/-- `UpdatePreferredDownload` with what the node is found to be. -/
def updatePreferredDownload (nodeid : NodeId) (fPreferred : Bool) : Except DownloadFailure DownloadState :=
  match s.mapNodeState.lookup nodeid with
  | none => .error .nullDereference
  | some state =>
    .ok { s with
      mapNodeState := s.mapNodeState.insert nodeid { state with fPreferredDownload := fPreferred }
      nPreferredDownload := s.nPreferredDownload - state.fPreferredDownload.toNat + fPreferred.toNat }

/-- `MarkBlockAsReceived`: whether the block was requested. -/
def markBlockAsReceived (hash : Uint256) (now : ℤ) : Except DownloadFailure (Bool × DownloadState) :=
  match s.mapBlocksInFlight.lookup hash with
  | none => .ok (false, s)
  | some (nodeid, it) =>
    match s.mapNodeState.lookup nodeid with
    | none => .error .nullDereference
    | some state =>
      match state.vBlocksInFlight.lookup it with
      | none => .error .invalidIterator
      | some entry =>
        let state' := state.receive it entry now
        .ok (true,
          { s with
            mapNodeState := s.mapNodeState.insert nodeid state'
            nPeersWithValidatedDownloads :=
              if state'.nBlocksInFlightValidHeaders = 0 ∧ entry.fValidatedHeaders = true then
                s.nPeersWithValidatedDownloads - 1
              else s.nPeersWithValidatedDownloads
            mapBlocksInFlight := s.mapBlocksInFlight.erase hash })

/-- `MarkBlockAsInFlight` behind the call of `MarkBlockAsReceived`. -/
def queueBlock (nodeid : NodeId) (hash : Uint256) (pindex : Option Uint256) (now : ℤ) (state : CNodeState) :
    DownloadState :=
  let state' := state.queue s.nextIterator ⟨hash, pindex.isSome⟩ now
  { s with
    mapNodeState := s.mapNodeState.insert nodeid state'
    nPeersWithValidatedDownloads :=
      if state'.nBlocksInFlightValidHeaders = 1 ∧ pindex.isSome = true then s.nPeersWithValidatedDownloads + 1
      else s.nPeersWithValidatedDownloads
    mapBlocksInFlight := s.mapBlocksInFlight.insert hash (nodeid, s.nextIterator)
    nextIterator := s.nextIterator + 1 }

/-- `MarkBlockAsInFlight`: false if the block was already in flight from the same peer. -/
def markBlockAsInFlight (nodeid : NodeId) (hash : Uint256) (pindex : Option Uint256) (nowReceived now : ℤ) :
    Except DownloadFailure (Bool × DownloadState) :=
  match s.mapNodeState.lookup nodeid with
  | none => .error .stateAssertion
  | some _ =>
    if (s.mapBlocksInFlight.lookup hash).map Prod.fst = some nodeid then .ok (false, s)
    else
      match s.markBlockAsReceived hash nowReceived with
      | .error e => .error e
      | .ok (_, s) =>
        match s.mapNodeState.lookup nodeid with
        | none => .error .nullDereference
        | some state => .ok (true, s.queueBlock nodeid hash pindex now state)

/-- `FinalizeNode`, with `fUpdateConnectionTime`. -/
def finalizeNode (nodeid : NodeId) : Except DownloadFailure (Bool × DownloadState) :=
  match s.mapNodeState.lookup nodeid with
  | none => .error .nullDereference
  | some state =>
    let fUpdateConnectionTime := decide (state.nMisbehavior = 0) && state.fCurrentlyConnected
    let s : DownloadState :=
      { s with
        nSyncStarted := s.nSyncStarted - state.fSyncStarted.toNat
        mapBlocksInFlight := state.vBlocksInFlight.foldl (fun m entry => m.erase entry.2.hash) s.mapBlocksInFlight
        nPreferredDownload := s.nPreferredDownload - state.fPreferredDownload.toNat
        nPeersWithValidatedDownloads :=
          s.nPeersWithValidatedDownloads - (decide (state.nBlocksInFlightValidHeaders ≠ 0)).toNat }
    if s.nPeersWithValidatedDownloads < 0 then .error .validatedDownloadsAssertion
    else
      let s : DownloadState := { s with mapNodeState := s.mapNodeState.erase nodeid }
      if s.mapNodeState.keys = ∅ then
        -- a consistency check after the last peer is removed
        if s.mapBlocksInFlight.keys ≠ ∅ then .error .blocksInFlightAssertion
        else if s.nPreferredDownload ≠ 0 then .error .preferredDownloadAssertion
        else if s.nPeersWithValidatedDownloads ≠ 0 then .error .validatedDownloadsAssertion
        else .ok (fUpdateConnectionTime, s)
      else .ok (fUpdateConnectionTime, s)

end Calls

section Invariant

variable {s s' : DownloadState} {nodeid n : NodeId} {hash h : Uint256} {it : ℕ} {state : CNodeState} {entry : QueuedBlock}

def hasValidated (state : CNodeState) : Bool := decide (0 < state.nBlocksInFlightValidHeaders)

/-- The counters of a peer agree with its list. -/
structure PeerCounted (nextIterator : ℕ) (state : CNodeState) : Prop where
  nBlocksInFlight : state.nBlocksInFlight = state.vBlocksInFlight.length
  nBlocksInFlightValidHeaders : state.nBlocksInFlightValidHeaders =
    state.vBlocksInFlight.countP (fun q => q.2.fValidatedHeaders)
  nodup : (state.vBlocksInFlight.map Prod.fst).Nodup
  fresh : ∀ q ∈ state.vBlocksInFlight, q.1 < nextIterator

/-- The block is at this place in the list of this peer. -/
def InFlightAt (s : DownloadState) (hash : Uint256) (nodeid : NodeId) (it : ℕ) : Prop :=
  ∃ state entry, s.mapNodeState.lookup nodeid = some state ∧ (it, entry) ∈ state.vBlocksInFlight ∧
    entry.hash = hash

/-- Peers, map and global counters agree. -/
structure DownloadInv (s : DownloadState) : Prop where
  peers : ∀ nodeid state, s.mapNodeState.lookup nodeid = some state → PeerCounted s.nextIterator state
  pointed : ∀ hash nodeid it, s.mapBlocksInFlight.lookup hash = some (nodeid, it) ↔ s.InFlightAt hash nodeid it
  nPeersWithValidatedDownloads : s.nPeersWithValidatedDownloads = countValues hasValidated s.mapNodeState
  nPreferredDownload : s.nPreferredDownload = countValues CNodeState.fPreferredDownload s.mapNodeState

lemma inFlightAt_iff (h : s.mapNodeState.lookup nodeid = some state) :
    s.InFlightAt hash nodeid it ↔ ∃ entry, (it, entry) ∈ state.vBlocksInFlight ∧ entry.hash = hash := by
  unfold InFlightAt
  rw [h]
  simp

lemma inFlightAt_insert_self (h : s'.mapNodeState = s.mapNodeState.insert nodeid state) :
    s'.InFlightAt hash nodeid it ↔ ∃ entry, (it, entry) ∈ state.vBlocksInFlight ∧ entry.hash = hash := by
  apply inFlightAt_iff
  rw [h, Finmap.lookup_insert]

lemma inFlightAt_insert_ne (h : s'.mapNodeState = s.mapNodeState.insert nodeid state) (hn : n ≠ nodeid) :
    s'.InFlightAt hash n it ↔ s.InFlightAt hash n it := by
  unfold InFlightAt
  rw [h, Finmap.lookup_insert_of_ne _ hn]

lemma downloadInv_init : DownloadInv init where
  peers nodeid state h := by
    rw [show init.mapNodeState = ∅ from rfl, Finmap.lookup_empty] at h
    cases h
  pointed hash nodeid it := by
    unfold InFlightAt
    rw [show init.mapNodeState = ∅ from rfl, show init.mapBlocksInFlight = ∅ from rfl, Finmap.lookup_empty]
    simp
  nPeersWithValidatedDownloads := by
    rw [show init.mapNodeState = ∅ from rfl, countValues_empty]
    rfl
  nPreferredDownload := by
    rw [show init.mapNodeState = ∅ from rfl, countValues_empty]
    rfl

lemma mem_insert_iff (h : s.mapNodeState.lookup nodeid = some state) {state' : CNodeState} :
    n ∈ s.mapNodeState.insert nodeid state' ↔ n ∈ s.mapNodeState := by
  rw [Finmap.mem_insert, or_iff_right_of_imp]
  rintro rfl
  exact Finmap.mem_of_lookup_eq_some h

lemma forall_insert {m : Finmap (fun _ : NodeId => CNodeState)} {P : CNodeState → Prop}
    (h : ∀ n st, m.lookup n = some st → P st) (hstate : P state) :
    ∀ n st, (m.insert nodeid state).lookup n = some st → P st := by
  intro n st hst
  by_cases hn : n = nodeid
  · rw [hn, Finmap.lookup_insert] at hst
    obtain rfl := Option.some.inj hst
    exact hstate
  · rw [Finmap.lookup_insert_of_ne _ hn] at hst
    exact h n st hst

lemma countValidated_insert {m : Finmap (fun _ : NodeId => CNodeState)} (h : m.lookup nodeid = some state)
    (state' : CNodeState) :
    (countValues hasValidated (m.insert nodeid state') : ℤ) =
      countValues hasValidated m - (if 0 < state.nBlocksInFlightValidHeaders then 1 else 0) +
        (if 0 < state'.nBlocksInFlightValidHeaders then 1 else 0) := by
  have hinsert := countValues_insert (p := hasValidated) h state'
  unfold hasValidated at hinsert ⊢
  split_ifs <;> simp_all
  all_goals omega

lemma PeerCounted.split {bound : ℕ} (hs : PeerCounted bound state) (hmem : (it, entry) ∈ state.vBlocksInFlight) :
    ∃ l₁ l₂, state.vBlocksInFlight = l₁ ++ (it, entry) :: l₂ ∧ state.vBlocksInFlight.lookup it = some entry ∧
      state.vBlocksInFlight.filter (fun q => q.1 ≠ it) = l₁ ++ l₂ := by
  obtain ⟨l₁, l₂, hl⟩ := append_of_mem hmem
  have hnodup := hs.nodup
  rw [hl, map_append, map_cons, nodup_middle, nodup_cons, ← map_append] at hnodup
  have hne : ∀ q ∈ l₁ ++ l₂, q.1 ≠ it := by
    intro q hq heq
    have hmem' : q.1 ∈ (l₁ ++ l₂).map Prod.fst := mem_map_of_mem hq
    rw [heq] at hmem'
    exact hnodup.1 hmem'
  refine ⟨l₁, l₂, hl, ?_, ?_⟩
  · rw [hl]
    exact lookup_eq_some_iff.mpr ⟨l₁, l₂, rfl, fun q hq => bne_iff_ne.mpr (hne q (mem_append_left _ hq)).symm⟩
  · rw [hl, filter_append, filter_cons_of_neg (by simp), ← filter_append, filter_eq_self]
    intro q hq
    exact decide_eq_true (hne q hq)

section Receive

variable {now : ℤ}

lemma mem_receive {i : ℕ} {e : QueuedBlock} :
    (i, e) ∈ (state.receive it entry now).vBlocksInFlight ↔ (i, e) ∈ state.vBlocksInFlight ∧ i ≠ it := by
  change (i, e) ∈ state.vBlocksInFlight.filter (fun q => q.1 ≠ it) ↔ _
  rw [mem_filter, decide_eq_true_eq]

lemma PeerCounted.receive {bound : ℕ} (hs : PeerCounted bound state) (hmem : (it, entry) ∈ state.vBlocksInFlight) :
    PeerCounted bound (state.receive it entry now) := by
  obtain ⟨l₁, l₂, hl, -, hfilter⟩ := hs.split hmem
  obtain ⟨hcount, hvalid, hnodup, hfresh⟩ := hs
  refine ⟨?_, ?_, hnodup.sublist (filter_sublist.map _), fun q hq => hfresh q (mem_of_mem_filter hq)⟩
  · change state.nBlocksInFlight - 1 = ((state.vBlocksInFlight.filter (fun q => q.1 ≠ it)).length : ℤ)
    rw [hfilter, hcount, hl]
    simp
    omega
  · change state.nBlocksInFlightValidHeaders - entry.fValidatedHeaders.toNat =
      ((state.vBlocksInFlight.filter (fun q => q.1 ≠ it)).countP (fun q => q.2.fValidatedHeaders) : ℤ)
    rw [hfilter, hvalid, hl, countP_append, countP_cons, countP_append]
    cases entry.fValidatedHeaders
    · simp
    · simp
      omega

/-- The block itself is in no list any longer, and no other element has gone. -/
lemma inFlightAt_receive (hstate : s.mapNodeState.lookup nodeid = some state)
    (hnodes : s'.mapNodeState = s.mapNodeState.insert nodeid (state.receive it entry now)) {i : ℕ} :
    s'.InFlightAt h n i ↔ s.InFlightAt h n i ∧ ¬(n = nodeid ∧ i = it) := by
  by_cases hn : n = nodeid
  · rw [hn, inFlightAt_insert_self hnodes, inFlightAt_iff hstate]
    simp only [mem_receive]
    tauto
  · rw [inFlightAt_insert_ne hnodes hn, and_iff_left (fun hno => hn hno.1)]

lemma DownloadInv.pointed_receive (hs : DownloadInv s) (hstate : s.mapNodeState.lookup nodeid = some state)
    (hmem : (it, entry) ∈ state.vBlocksInFlight) {i : ℕ} :
    (s.mapBlocksInFlight.erase entry.hash).lookup h = some (n, i) ↔
      s.InFlightAt h n i ∧ ¬(n = nodeid ∧ i = it) := by
  have hfound := (hs.pointed entry.hash nodeid it).mpr ⟨state, entry, hstate, hmem, rfl⟩
  rw [← hs.pointed]
  by_cases hh : h = entry.hash
  · rw [hh, Finmap.lookup_erase, hfound]
    simp only [reduceCtorEq, Option.some_inj, Prod.mk.injEq, false_iff]
    tauto
  · rw [Finmap.lookup_erase_ne hh, iff_self_and]
    rintro hpoint ⟨rfl, rfl⟩
    obtain ⟨st, e, hst, he, rfl⟩ := (hs.pointed h n i).mp hpoint
    obtain rfl := Option.some.inj (hstate.symm.trans hst)
    -- one place has one element
    obtain ⟨-, -, -, hlookup, -⟩ := (hs.peers n state hstate).split hmem
    obtain ⟨-, -, -, hlookup', -⟩ := (hs.peers n state hstate).split he
    exact hh (congrArg QueuedBlock.hash (Option.some.inj (hlookup'.symm.trans hlookup)))

lemma DownloadInv.countValidated_receive (hs : DownloadInv s) (hstate : s.mapNodeState.lookup nodeid = some state)
    (hmem : (it, entry) ∈ state.vBlocksInFlight) :
    (if (state.receive it entry now).nBlocksInFlightValidHeaders = 0 ∧ entry.fValidatedHeaders = true then
        s.nPeersWithValidatedDownloads - 1
      else s.nPeersWithValidatedDownloads) =
      countValues hasValidated (s.mapNodeState.insert nodeid (state.receive it entry now)) := by
  have hpeer : PeerCounted _ (state.receive it entry now) := (hs.peers nodeid state hstate).receive hmem
  have hleft := hpeer.nBlocksInFlightValidHeaders
  have hnew : (state.receive it entry now).nBlocksInFlightValidHeaders =
      state.nBlocksInFlightValidHeaders - entry.fValidatedHeaders.toNat := rfl
  rw [hs.nPeersWithValidatedDownloads, countValidated_insert hstate]
  cases hvalidated : entry.fValidatedHeaders with
  | false =>
    rw [hvalidated, Bool.toNat_false] at hnew
    rw [if_neg (fun hno => Bool.false_ne_true hno.2), hnew]
    split_ifs <;> omega
  | true =>
    rw [hvalidated, Bool.toNat_true] at hnew
    simp only [and_true]
    rw [if_pos (c := 0 < state.nBlocksInFlightValidHeaders) (by omega)]
    split_ifs <;> omega

end Receive

/-- The calls leave the nodes as they are, and of the other nodes also the lists. -/
theorem markBlockAsReceived_spec (hs : DownloadInv s) (hash : Uint256) (now : ℤ) :
    ∃ b s', s.markBlockAsReceived hash now = .ok (b, s') ∧ DownloadInv s' ∧
      (∀ nodeid, nodeid ∈ s'.mapNodeState ↔ nodeid ∈ s.mapNodeState) ∧ s'.mapBlocksInFlight.lookup hash = none := by
  unfold markBlockAsReceived
  cases hfound : s.mapBlocksInFlight.lookup hash with
  | none => exact ⟨false, s, rfl, hs, fun _ => Iff.rfl, hfound⟩
  | some q =>
    obtain ⟨nodeid, it⟩ := q
    obtain ⟨state, entry, hstate, hmem, rfl⟩ := (hs.pointed hash nodeid it).mp hfound
    obtain ⟨-, -, -, hlookup, -⟩ := (hs.peers nodeid state hstate).split hmem
    dsimp only
    rw [hstate]
    dsimp only
    rw [hlookup]
    refine ⟨true, _, rfl, ?_, fun n => mem_insert_iff hstate, Finmap.lookup_erase ..⟩
    constructor
    case peers => exact forall_insert hs.peers ((hs.peers nodeid state hstate).receive hmem)
    case pointed =>
      intro h n i
      rw [inFlightAt_receive hstate rfl]
      exact hs.pointed_receive hstate hmem
    case nPeersWithValidatedDownloads => exact hs.countValidated_receive hstate hmem
    case nPreferredDownload =>
      have hinsert := countValues_insert (p := CNodeState.fPreferredDownload) hstate (state.receive it entry now)
      change s.nPreferredDownload = _
      rw [hs.nPreferredDownload]
      dsimp only [CNodeState.receive] at hinsert ⊢
      omega

section Queue

variable {bound : ℕ} {now : ℤ}

lemma PeerCounted.mono {bound' : ℕ} (hs : PeerCounted bound state) (hle : bound ≤ bound') : PeerCounted bound' state :=
  { hs with fresh := fun q hq => (hs.fresh q hq).trans_le hle }

lemma PeerCounted.queue (hs : PeerCounted bound state) : PeerCounted (bound + 1) (state.queue bound entry now) := by
  obtain ⟨hcount, hvalid, hnodup, hfresh⟩ := hs
  refine ⟨?_, ?_, ?_, ?_⟩
  · change state.nBlocksInFlight + 1 = ((state.vBlocksInFlight ++ [(bound, entry)]).length : ℤ)
    rw [length_append, length_singleton]
    omega
  · change state.nBlocksInFlightValidHeaders + entry.fValidatedHeaders.toNat =
      ((state.vBlocksInFlight ++ [(bound, entry)]).countP (fun q => q.2.fValidatedHeaders) : ℤ)
    rw [countP_append, countP_singleton, hvalid]
    cases entry.fValidatedHeaders <;> rfl
  · change ((state.vBlocksInFlight ++ [(bound, entry)]).map Prod.fst).Nodup
    rw [map_append, nodup_append]
    refine ⟨hnodup, nodup_singleton _, ?_⟩
    rintro a ha b hb rfl
    obtain ⟨q, hq, rfl⟩ := mem_map.mp ha
    have hlt := hfresh q hq
    rw [mem_singleton.mp hb] at hlt
    exact lt_irrefl _ hlt
  · intro q hq
    cases mem_append.mp hq with
    | inl hold => exact (hfresh q hold).trans (Nat.lt_succ_self _)
    | inr hlast =>
      rw [mem_singleton.mp hlast]
      exact Nat.lt_succ_self _

lemma inFlightAt_queue (hstate : s.mapNodeState.lookup nodeid = some state)
    (hnodes : s'.mapNodeState = s.mapNodeState.insert nodeid (state.queue bound entry now)) {i : ℕ} :
    s'.InFlightAt h n i ↔ s.InFlightAt h n i ∨ h = entry.hash ∧ n = nodeid ∧ i = bound := by
  have hmem : ∀ e, (i, e) ∈ (state.queue bound entry now).vBlocksInFlight ↔
      (i, e) ∈ state.vBlocksInFlight ∨ i = bound ∧ e = entry := by
    intro e
    change _ ∈ state.vBlocksInFlight ++ [(bound, entry)] ↔ _
    rw [mem_append, mem_singleton, Prod.mk.injEq]
  by_cases hn : n = nodeid
  · rw [hn, inFlightAt_insert_self hnodes, inFlightAt_iff hstate]
    simp only [hmem]
    constructor
    · rintro ⟨e, hin | ⟨rfl, rfl⟩, rfl⟩
      · exact Or.inl ⟨e, hin, rfl⟩
      · exact Or.inr ⟨rfl, trivial, rfl⟩
    · rintro (⟨e, hin, rfl⟩ | ⟨rfl, -, rfl⟩)
      · exact ⟨e, Or.inl hin, rfl⟩
      · exact ⟨entry, Or.inr ⟨rfl, rfl⟩, rfl⟩
  · rw [inFlightAt_insert_ne hnodes hn, or_iff_left (fun hno => hn hno.2.1)]

lemma DownloadInv.countValidated_queue (hs : DownloadInv s) (hstate : s.mapNodeState.lookup nodeid = some state) :
    (if (state.queue it entry now).nBlocksInFlightValidHeaders = 1 ∧ entry.fValidatedHeaders = true then
        s.nPeersWithValidatedDownloads + 1
      else s.nPeersWithValidatedDownloads) =
      countValues hasValidated (s.mapNodeState.insert nodeid (state.queue it entry now)) := by
  have hvalid := (hs.peers nodeid state hstate).nBlocksInFlightValidHeaders
  have hnew : (state.queue it entry now).nBlocksInFlightValidHeaders =
      state.nBlocksInFlightValidHeaders + entry.fValidatedHeaders.toNat := rfl
  rw [hs.nPeersWithValidatedDownloads, countValidated_insert hstate]
  cases hvalidated : entry.fValidatedHeaders with
  | false =>
    rw [hvalidated, Bool.toNat_false] at hnew
    rw [if_neg (fun hno => Bool.false_ne_true hno.2), hnew]
    split_ifs <;> omega
  | true =>
    rw [hvalidated, Bool.toNat_true] at hnew
    simp only [and_true]
    rw [if_pos (c := 0 < (state.queue it entry now).nBlocksInFlightValidHeaders) (by omega)]
    split_ifs <;> omega

end Queue

lemma queueBlock_inv (hs : DownloadInv s) (hstate : s.mapNodeState.lookup nodeid = some state)
    (hnone : s.mapBlocksInFlight.lookup hash = none) (pindex : Option Uint256) (now : ℤ) :
    DownloadInv (s.queueBlock nodeid hash pindex now state) := by
  have hpeer := hs.peers nodeid state hstate
  let state' := state.queue s.nextIterator ⟨hash, pindex.isSome⟩ now
  constructor
  case peers =>
    exact forall_insert (fun n st hst => (hs.peers n st hst).mono (Nat.le_succ _)) hpeer.queue
  case pointed =>
    intro h n i
    rw [inFlightAt_queue hstate rfl]
    change (s.mapBlocksInFlight.insert hash (nodeid, s.nextIterator)).lookup h = _ ↔ _
    by_cases hh : h = hash
    · have hnowhere : ¬s.InFlightAt h n i := by
        rw [hh, ← hs.pointed, hnone]
        nofun
      subst hh
      rw [Finmap.lookup_insert, or_iff_right hnowhere, Option.some_inj, Prod.mk.injEq]
      constructor
      · rintro ⟨rfl, rfl⟩
        exact ⟨rfl, rfl, rfl⟩
      · rintro ⟨-, rfl, rfl⟩
        exact ⟨rfl, rfl⟩
    · rw [Finmap.lookup_insert_of_ne _ hh, or_iff_left (fun hno => hh hno.1)]
      exact hs.pointed h n i
  case nPeersWithValidatedDownloads => exact hs.countValidated_queue hstate
  case nPreferredDownload =>
    have hinsert := countValues_insert (p := CNodeState.fPreferredDownload) hstate state'
    change s.nPreferredDownload = (countValues CNodeState.fPreferredDownload (s.mapNodeState.insert nodeid state') : ℤ)
    rw [hs.nPreferredDownload]
    dsimp only [state', CNodeState.queue] at hinsert ⊢
    omega

theorem markBlockAsInFlight_spec (hs : DownloadInv s) (hnode : nodeid ∈ s.mapNodeState) (hash : Uint256)
    (pindex : Option Uint256) (nowReceived now : ℤ) :
    ∃ b s', s.markBlockAsInFlight nodeid hash pindex nowReceived now = .ok (b, s') ∧ DownloadInv s' := by
  obtain ⟨state, hstate⟩ := Finmap.mem_iff.mp hnode
  unfold markBlockAsInFlight
  rw [hstate]
  dsimp only
  by_cases hsame : (s.mapBlocksInFlight.lookup hash).map Prod.fst = some nodeid
  · rw [if_pos hsame]
    exact ⟨false, s, rfl, hs⟩
  · obtain ⟨b, s₁, hrun, hinv, hkept, hnone⟩ := markBlockAsReceived_spec hs hash nowReceived
    obtain ⟨state₁, hstate₁⟩ := Finmap.mem_iff.mp ((hkept nodeid).mpr hnode)
    rw [if_neg hsame, hrun]
    dsimp only
    rw [hstate₁]
    exact ⟨true, _, rfl, queueBlock_inv hinv hstate₁ hnone pindex now⟩

lemma lookup_foldl_erase {m : Finmap (fun _ : Uint256 => NodeId × ℕ)} (l : List (ℕ × QueuedBlock)) (h : Uint256) :
    (l.foldl (fun m q => m.erase q.2.hash) m).lookup h =
      if h ∈ l.map (fun q => q.2.hash) then none else m.lookup h := by
  induction l generalizing m with
  | nil => rfl
  | cons q l ih =>
    rw [foldl_cons, ih, map_cons]
    by_cases hl : h ∈ l.map (fun q => q.2.hash)
    · rw [if_pos hl, if_pos (mem_cons_of_mem _ hl)]
    · rw [if_neg hl]
      by_cases hq : h = q.2.hash
      · rw [if_pos (by rw [hq]; exact mem_cons_self), hq, Finmap.lookup_erase]
      · rw [if_neg (fun hmem => (mem_cons.mp hmem).elim hq hl), Finmap.lookup_erase_ne hq]

/-- What `FinalizeNode` makes of the state. -/
def withoutNode (s : DownloadState) (nodeid : NodeId) (state : CNodeState) : DownloadState :=
  { s with
    nSyncStarted := s.nSyncStarted - state.fSyncStarted.toNat
    mapBlocksInFlight := state.vBlocksInFlight.foldl (fun m entry => m.erase entry.2.hash) s.mapBlocksInFlight
    nPreferredDownload := s.nPreferredDownload - state.fPreferredDownload.toNat
    nPeersWithValidatedDownloads :=
      s.nPeersWithValidatedDownloads - (decide (state.nBlocksInFlightValidHeaders ≠ 0)).toNat
    mapNodeState := s.mapNodeState.erase nodeid }

lemma withoutNode_inv (hs : DownloadInv s) (hstate : s.mapNodeState.lookup nodeid = some state) :
    DownloadInv (s.withoutNode nodeid state) := by
  have hcount := (hs.peers nodeid state hstate).nBlocksInFlightValidHeaders
  have hin : ∀ {h}, h ∈ state.vBlocksInFlight.map (fun q => q.2.hash) ↔ ∃ i, s.InFlightAt h nodeid i := by
    intro h
    simp only [inFlightAt_iff hstate, mem_map]
    constructor
    · rintro ⟨q, hq, hhash⟩
      exact ⟨q.1, q.2, hq, hhash⟩
    · rintro ⟨i, entry, hmem, hhash⟩
      exact ⟨(i, entry), hmem, hhash⟩
  constructor
  case peers =>
    intro n st hst
    by_cases hn : n = nodeid
    · rw [withoutNode, hn, Finmap.lookup_erase] at hst
      cases hst
    · rw [withoutNode, Finmap.lookup_erase_ne hn] at hst
      exact hs.peers n st hst
  case pointed =>
    intro h n i
    have hat : (s.withoutNode nodeid state).InFlightAt h n i ↔ s.InFlightAt h n i ∧ n ≠ nodeid := by
      unfold InFlightAt withoutNode
      by_cases hn : n = nodeid
      · rw [hn, Finmap.lookup_erase]
        simp
      · rw [Finmap.lookup_erase_ne hn, and_iff_left hn]
    rw [hat, ← hs.pointed, withoutNode, lookup_foldl_erase]
    by_cases hl : h ∈ state.vBlocksInFlight.map (fun q => q.2.hash)
    · rw [if_pos hl]
      obtain ⟨j, hj⟩ := hin.mp hl
      rw [(hs.pointed h nodeid j).mpr hj]
      simp only [reduceCtorEq, Option.some_inj, Prod.mk.injEq, false_iff]
      rintro ⟨⟨rfl, -⟩, hne⟩
      exact hne rfl
    · rw [if_neg hl, iff_self_and]
      rintro hpoint rfl
      exact hl (hin.mpr ⟨i, (hs.pointed h n i).mp hpoint⟩)
  case nPeersWithValidatedDownloads =>
    have herase := countValues_erase (p := hasValidated) hstate
    change s.nPeersWithValidatedDownloads - _ = (countValues hasValidated (s.mapNodeState.erase nodeid) : ℤ)
    rw [hs.nPeersWithValidatedDownloads, ← herase]
    have hsame : hasValidated state = decide (state.nBlocksInFlightValidHeaders ≠ 0) := by
      unfold hasValidated
      rw [decide_eq_decide]
      omega
    rw [hsame]
    push_cast
    omega
  case nPreferredDownload =>
    have herase := countValues_erase (p := CNodeState.fPreferredDownload) hstate
    change s.nPreferredDownload - _ = (countValues CNodeState.fPreferredDownload (s.mapNodeState.erase nodeid) : ℤ)
    rw [hs.nPreferredDownload, ← herase]
    push_cast
    omega

/-- Without peers no block is in flight, and the counters are zero. -/
lemma DownloadInv.of_empty (hs : DownloadInv s) (hempty : s.mapNodeState = ∅) :
    s.mapBlocksInFlight.keys = ∅ ∧ s.nPreferredDownload = 0 ∧ s.nPeersWithValidatedDownloads = 0 := by
  refine ⟨Finset.eq_empty_of_forall_notMem ?_, ?_, ?_⟩
  · intro h hmem
    obtain ⟨⟨n, i⟩, hpoint⟩ := Finmap.mem_iff.mp (Finmap.mem_keys.mp hmem)
    obtain ⟨st, entry, hst, -⟩ := (hs.pointed h n i).mp hpoint
    rw [hempty, Finmap.lookup_empty] at hst
    cases hst
  · rw [hs.nPreferredDownload, hempty, countValues_empty]
    rfl
  · rw [hs.nPeersWithValidatedDownloads, hempty, countValues_empty]
    rfl

/-- A peer leaves, and no assertion fails. -/
theorem finalizeNode_spec (hs : DownloadInv s) (hnode : nodeid ∈ s.mapNodeState) :
    ∃ b s', s.finalizeNode nodeid = .ok (b, s') ∧ DownloadInv s' := by
  obtain ⟨state, hstate⟩ := Finmap.mem_iff.mp hnode
  have hinv := withoutNode_inv hs hstate
  refine ⟨decide (state.nMisbehavior = 0) && state.fCurrentlyConnected, s.withoutNode nodeid state, ?_, hinv⟩
  have hnonneg : ¬(s.withoutNode nodeid state).nPeersWithValidatedDownloads < 0 := by
    rw [hinv.nPeersWithValidatedDownloads]
    omega
  unfold finalizeNode
  rw [hstate]
  refine (if_neg hnonneg).trans ?_
  by_cases hlast : (s.mapNodeState.erase nodeid).keys = ∅
  · have hempty : (s.withoutNode nodeid state).mapNodeState = ∅ := by
      apply Finmap.ext_lookup
      intro n
      rw [Finmap.lookup_empty, Finmap.lookup_eq_none, ← Finmap.mem_keys, withoutNode, hlast]
      exact Finset.notMem_empty n
    obtain ⟨hblocks, hpreferred, hvalidated⟩ := hinv.of_empty hempty
    refine (if_pos hlast).trans ?_
    refine (if_neg (not_not.mpr hblocks)).trans ?_
    refine (if_neg (not_not.mpr hpreferred)).trans ?_
    exact if_neg (not_not.mpr hvalidated)
  · exact if_neg hlast

lemma initializeNode_inv (hs : DownloadInv s) (nodeid : NodeId) : DownloadInv (s.initializeNode nodeid) := by
  unfold initializeNode
  split_ifs with hmem
  · exact hs
  rw [← Finmap.lookup_eq_none] at hmem
  constructor
  case peers =>
    apply forall_insert hs.peers
    exact ⟨rfl, rfl, nodup_nil, fun q hq => absurd hq not_mem_nil⟩
  case pointed =>
    intro h n i
    by_cases hn : n = nodeid
    · subst hn
      rw [inFlightAt_insert_self rfl]
      change s.mapBlocksInFlight.lookup h = _ ↔ _
      rw [hs.pointed]
      unfold InFlightAt
      rw [hmem]
      simp [CNodeState.init]
    · rw [inFlightAt_insert_ne rfl hn]
      exact hs.pointed h n i
  case nPeersWithValidatedDownloads =>
    rw [countValues_insert_new hmem]
    exact hs.nPeersWithValidatedDownloads
  case nPreferredDownload =>
    rw [countValues_insert_new hmem]
    exact hs.nPreferredDownload

lemma updatePreferredDownload_spec (hs : DownloadInv s) (hnode : nodeid ∈ s.mapNodeState) (fPreferred : Bool) :
    ∃ s', s.updatePreferredDownload nodeid fPreferred = .ok s' ∧ DownloadInv s' := by
  obtain ⟨state, hstate⟩ := Finmap.mem_iff.mp hnode
  let state' : CNodeState := { state with fPreferredDownload := fPreferred }
  unfold updatePreferredDownload
  rw [hstate]
  refine ⟨_, rfl, ?_⟩
  constructor
  case peers =>
    obtain ⟨hcount, hvalid, hnodup, hfresh⟩ := hs.peers nodeid state hstate
    exact forall_insert hs.peers ⟨hcount, hvalid, hnodup, hfresh⟩
  case pointed =>
    intro h n i
    have hpoint := hs.pointed h n i
    by_cases hn : n = nodeid
    · rw [hn] at hpoint ⊢
      rw [inFlightAt_insert_self rfl]
      rw [inFlightAt_iff hstate] at hpoint
      exact hpoint
    · rw [inFlightAt_insert_ne rfl hn]
      exact hpoint
  case nPeersWithValidatedDownloads =>
    have hinsert := countValues_insert (p := hasValidated) hstate state'
    have hsame : hasValidated state' = hasValidated state := rfl
    rw [hsame] at hinsert
    rw [Nat.add_right_cancel hinsert]
    exact hs.nPeersWithValidatedDownloads
  case nPreferredDownload =>
    have hinsert := countValues_insert (p := CNodeState.fPreferredDownload) hstate state'
    change s.nPreferredDownload - _ + _ = _
    rw [hs.nPreferredDownload]
    dsimp only [state'] at hinsert ⊢
    omega

end Invariant

section Runs

/-- The states that calls lead to from the empty one. -/
inductive Reached : DownloadState → Prop
  | start : Reached init
  | initializeNode {s : DownloadState} (h : Reached s) (nodeid : NodeId) : Reached (s.initializeNode nodeid)
  | updatePreferredDownload {s s' : DownloadState} {nodeid : NodeId} {fPreferred : Bool} (h : Reached s)
      (hnode : nodeid ∈ s.mapNodeState) (hrun : s.updatePreferredDownload nodeid fPreferred = .ok s') : Reached s'
  | markBlockAsReceived {s s' : DownloadState} {hash : Uint256} {now : ℤ} {b : Bool} (h : Reached s)
      (hrun : s.markBlockAsReceived hash now = .ok (b, s')) : Reached s'
  | markBlockAsInFlight {s s' : DownloadState} {nodeid : NodeId} {hash : Uint256} {pindex : Option Uint256}
      {b : Bool} {nowReceived now : ℤ} (h : Reached s) (hnode : nodeid ∈ s.mapNodeState)
      (hrun : s.markBlockAsInFlight nodeid hash pindex nowReceived now = .ok (b, s')) : Reached s'
  | finalizeNode {s s' : DownloadState} {nodeid : NodeId} {b : Bool} (h : Reached s) (hnode : nodeid ∈ s.mapNodeState)
      (hrun : s.finalizeNode nodeid = .ok (b, s')) : Reached s'

theorem Reached.inv {s : DownloadState} (h : Reached s) : DownloadInv s := by
  induction h with
  | start => exact downloadInv_init
  | initializeNode h nodeid ih => exact initializeNode_inv ih nodeid
  | updatePreferredDownload h hnode hrun ih =>
    obtain ⟨s₁, hrun', hinv⟩ := updatePreferredDownload_spec ih hnode _
    obtain rfl := Except.ok.inj (hrun.symm.trans hrun')
    exact hinv
  | markBlockAsReceived h hrun ih =>
    obtain ⟨b, s₁, hrun', hinv, -⟩ := markBlockAsReceived_spec ih _ _
    cases hrun.symm.trans hrun'
    exact hinv
  | markBlockAsInFlight h hnode hrun ih =>
    obtain ⟨b, s₁, hrun', hinv⟩ := markBlockAsInFlight_spec ih hnode _ _ _ _
    cases hrun.symm.trans hrun'
    exact hinv
  | finalizeNode h hnode hrun ih =>
    obtain ⟨b, s₁, hrun', hinv⟩ := finalizeNode_spec ih hnode
    cases hrun.symm.trans hrun'
    exact hinv

/-- Every block is in flight from one peer at most, and all counters and pointers are right. No call on a
live node fails. -/
theorem reached_counted {s : DownloadState} (h : Reached s) :
    (∀ hash nodeid it, s.mapBlocksInFlight.lookup hash = some (nodeid, it) ↔ s.InFlightAt hash nodeid it) ∧
    (∀ hash n n' it it', s.InFlightAt hash n it → s.InFlightAt hash n' it' → n = n' ∧ it = it') ∧
    (∀ nodeid state, s.mapNodeState.lookup nodeid = some state →
      state.nBlocksInFlight = state.vBlocksInFlight.length ∧
      state.nBlocksInFlightValidHeaders = state.vBlocksInFlight.countP (fun q => q.2.fValidatedHeaders) ∧
      (state.vBlocksInFlight.map Prod.fst).Nodup) ∧
    s.nPeersWithValidatedDownloads = countValues hasValidated s.mapNodeState ∧
    (∀ hash now, (s.markBlockAsReceived hash now).isOk) ∧
    ∀ nodeid ∈ s.mapNodeState, (s.finalizeNode nodeid).isOk ∧
      ∀ hash pindex nowReceived now, (s.markBlockAsInFlight nodeid hash pindex nowReceived now).isOk := by
  have hinv := h.inv
  refine ⟨hinv.pointed, fun hash n n' it it' hat hat' => ?_, fun nodeid state hstate => ?_,
    hinv.nPeersWithValidatedDownloads, fun hash now => ?_, fun nodeid hnode => ⟨?_, fun hash pindex t t' => ?_⟩⟩
  · rw [← hinv.pointed] at hat hat'
    exact Prod.mk.inj (Option.some.inj (hat.symm.trans hat'))
  · obtain ⟨hcount, hvalid, hnodup, -⟩ := hinv.peers nodeid state hstate
    exact ⟨hcount, hvalid, hnodup⟩
  · obtain ⟨b, s', hrun, -⟩ := markBlockAsReceived_spec hinv hash now
    rw [hrun]
    rfl
  · obtain ⟨b, s', hrun, -⟩ := finalizeNode_spec hinv hnode
    rw [hrun]
    rfl
  · obtain ⟨b, s', hrun, -⟩ := markBlockAsInFlight_spec hinv hnode hash pindex t t'
    rw [hrun]
    rfl

/-- A block asked for from a second peer leaves the first peer's list. -/
theorem reached_counted_second_peer :
    ∃ s₁ s₂,
      ((init.initializeNode 1).initializeNode 2).markBlockAsInFlight 1 (BaseBlob.null 32) none 0 0 =
        .ok (true, s₁) ∧
      s₁.markBlockAsInFlight 2 (BaseBlob.null 32) (some (BaseBlob.null 32)) 5 5 = .ok (true, s₂) ∧
      s₂.InFlightAt (BaseBlob.null 32) 2 1 ∧ ¬s₂.InFlightAt (BaseBlob.null 32) 1 0 := by
  have hstart : Reached ((init.initializeNode 1).initializeNode 2) :=
    (Reached.start.initializeNode 1).initializeNode 2
  obtain ⟨s₁, hrun₁, hnode, s₂, hrun₂, hlookup⟩ : ∃ s₁,
      ((init.initializeNode 1).initializeNode 2).markBlockAsInFlight 1 (BaseBlob.null 32) none 0 0 =
        .ok (true, s₁) ∧ 2 ∈ s₁.mapNodeState ∧
      ∃ s₂, s₁.markBlockAsInFlight 2 (BaseBlob.null 32) (some (BaseBlob.null 32)) 5 5 = .ok (true, s₂) ∧
        s₂.mapBlocksInFlight.lookup (BaseBlob.null 32) = some (2, 1) :=
    ⟨_, rfl, by decide +kernel, _, rfl, rfl⟩
  have hreached : Reached s₂ :=
    (hstart.markBlockAsInFlight (by decide +kernel) hrun₁).markBlockAsInFlight hnode hrun₂
  obtain ⟨hpointed, hunique, -⟩ := reached_counted hreached
  have hat := (hpointed _ _ _).mp hlookup
  refine ⟨s₁, s₂, hrun₁, hrun₂, hat, fun hat' => ?_⟩
  exact absurd (hunique _ _ _ _ _ hat hat').1 (by decide)

end Runs

end DownloadState

end MutableBitcoin
