import MutableBitcoin.Lib.OrderedContainers
import Mathlib.Data.Prod.Lex

/-!
# Eviction of a connection

`AttemptToEvictConnection` of `net.cpp`. Five passes sort the candidates and cut off those that are protected, and
what is left is scanned for the largest network group.
-/

namespace MutableBitcoin
open Lib List Function

/-- The members of a connection that the eviction reads. -/
structure CNode where
  id : ℤ
  fWhitelisted : Bool
  fInbound : Bool
  fDisconnect : Bool
  nTimeConnected : ℤ
  nMinPingUsecTime : ℤ
  nLastBlockTime : ℤ
  nLastTXTime : ℤ
  nServices : ℕ
  fRelayTxes : Bool
  /-- `pfilter != nullptr`. -/
  hasFilter : Bool
  nKeyedNetGroup : ℕ

/-- A connection that may be evicted. -/
structure NodeEvictionCandidate where
  id : ℤ
  nTimeConnected : ℤ
  nMinPingUsecTime : ℤ
  nLastBlockTime : ℤ
  nLastTXTime : ℤ
  fRelevantServices : Bool
  fRelayTxes : Bool
  fBloomFilter : Bool
  nKeyedNetGroup : ℕ

/-! ### Comparisons -/

def reverseCompareNodeMinPingTime (a b : NodeEvictionCandidate) : Bool := b.nMinPingUsecTime < a.nMinPingUsecTime

def reverseCompareNodeTimeConnected (a b : NodeEvictionCandidate) : Bool := b.nTimeConnected < a.nTimeConnected

def compareNetGroupKeyed (a b : NodeEvictionCandidate) : Bool := a.nKeyedNetGroup < b.nKeyedNetGroup

def compareNodeBlockTime (a b : NodeEvictionCandidate) : Bool :=
  if a.nLastBlockTime ≠ b.nLastBlockTime then a.nLastBlockTime < b.nLastBlockTime
  else if a.fRelevantServices ≠ b.fRelevantServices then b.fRelevantServices
  else b.nTimeConnected < a.nTimeConnected

/-- More than a few peers have not yet relayed a transaction. -/
def compareNodeTXTime (a b : NodeEvictionCandidate) : Bool :=
  if a.nLastTXTime ≠ b.nLastTXTime then a.nLastTXTime < b.nLastTXTime
  else if a.fRelayTxes ≠ b.fRelayTxes then b.fRelayTxes
  else if a.fBloomFilter ≠ b.fBloomFilter then a.fBloomFilter
  else b.nTimeConnected < a.nTimeConnected

/-- The orders that the five calls of `std::sort` return. -/
structure EvictionSorts where
  netGroup : UnstableSort compareNetGroupKeyed
  minPing : UnstableSort reverseCompareNodeMinPingTime
  txTime : UnstableSort compareNodeTXTime
  blockTime : UnstableSort compareNodeBlockTime
  timeConnected : UnstableSort reverseCompareNodeTimeConnected

/-! ### Candidates -/

def NodeEvictionCandidate.ofNode (nRelevantServices : ℕ) (node : CNode) : NodeEvictionCandidate :=
  ⟨node.id, node.nTimeConnected, node.nMinPingUsecTime, node.nLastBlockTime, node.nLastTXTime,
    node.nServices &&& nRelevantServices == nRelevantServices, node.fRelayTxes, node.hasFilter, node.nKeyedNetGroup⟩

def evictionCandidates (nRelevantServices : ℕ) (vNodes : List CNode) : List NodeEvictionCandidate :=
  vNodes.filterMap fun node =>
    if node.fWhitelisted then none
    else if !node.fInbound then none
    else if node.fDisconnect then none
    else some (.ofNode nRelevantServices node)

/-! ### The network group with the most connections -/

/-- The variables of the scan of the groups. -/
structure NetGroupScan where
  /-- It is not initialized. -/
  naMostConnections : Option ℕ
  nMostConnections : ℕ
  nMostConnectionsTime : ℤ
  mapNetGroupNodes : ℕ → List NodeEvictionCandidate

namespace NetGroupScan

def start : NetGroupScan := ⟨none, 0, 0, fun _ => []⟩

/-- The loop body that counts the net groups. -/
def visit (s : NetGroupScan) (node : NodeEvictionCandidate) : NetGroupScan :=
  let group := s.mapNetGroupNodes node.nKeyedNetGroup ++ [node]
  let mapNetGroupNodes := Function.update s.mapNetGroupNodes node.nKeyedNetGroup group
  let grouptime := (group.headD node).nTimeConnected
  let groupsize := group.length
  if s.nMostConnections < groupsize ∨ (groupsize = s.nMostConnections ∧ s.nMostConnectionsTime < grouptime) then
    ⟨some node.nKeyedNetGroup, groupsize, grouptime, mapNetGroupNodes⟩
  else { s with mapNetGroupNodes := mapNetGroupNodes }

end NetGroupScan

def evictedNode (vEvictionCandidates : List NodeEvictionCandidate) : Option ℤ := do
  let s := vEvictionCandidates.foldl NetGroupScan.visit .start
  let na ← s.naMostConnections
  let front ← (s.mapNetGroupNodes na).head?
  return front.id

/-- The loop that looks for the node to disconnect. -/
def disconnectNode (evicted : ℤ) : List CNode → Bool × List CNode
  | [] => (false, [])
  | node :: vNodes =>
    if node.id = evicted then (true, { node with fDisconnect := true } :: vNodes)
    else
      let r := disconnectNode evicted vNodes
      (r.1, node :: r.2)

/-! ### The passes -/

/-- What is left behind the four passes that protect a number of nodes each, and the fifth. A pass ends the call
where no candidate is left. -/
def unprotected (sorts : EvictionSorts) (candidates : List NodeEvictionCandidate) : List NodeEvictionCandidate :=
  if candidates.isEmpty then [] else
  let candidates := cutLast 4 (sorts.netGroup.sort candidates)
  if candidates.isEmpty then [] else
  let candidates := cutLast 8 (sorts.minPing.sort candidates)
  if candidates.isEmpty then [] else
  let candidates := cutLast 4 (sorts.txTime.sort candidates)
  if candidates.isEmpty then [] else
  let candidates := cutLast 4 (sorts.blockTime.sort candidates)
  if candidates.isEmpty then [] else
  cutLast (candidates.length / 2) (sorts.timeConnected.sort candidates)

/-- `AttemptToEvictConnection`: the return value and the nodes. -/
def attemptToEvictConnection (sorts : EvictionSorts) (nRelevantServices : ℕ) (vNodes : List CNode) :
    Option (Bool × List CNode) :=
  let candidates := unprotected sorts (evictionCandidates nRelevantServices vNodes)
  if candidates.isEmpty then some (false, vNodes)
  else do
    let evicted ← evictedNode candidates
    return disconnectNode evicted vNodes

/-! ### Connections -/

/-- The nodes of `CConnman`. No two of them have the same id. -/
structure Connections where
  vNodes : List CNode
  nodup : (vNodes.map CNode.id).Nodup

/-!
## Who is protected from eviction

The passes cut the candidates into those that each of them protects and those that are left.
-/

/-! ### Candidates -/

def CNode.evictable (node : CNode) : Bool := node.fInbound && !node.fWhitelisted && !node.fDisconnect

lemma evictionCandidates_eq (nRelevantServices : ℕ) (vNodes : List CNode) :
    evictionCandidates nRelevantServices vNodes =
      (vNodes.filter CNode.evictable).map (NodeEvictionCandidate.ofNode nRelevantServices) := by
  induction vNodes with
  | nil => rfl
  | cons node vNodes ih =>
    unfold evictionCandidates at ih ⊢
    rw [filterMap_cons, filter_cons, ih]
    cases hwhite : node.fWhitelisted <;> cases hinbound : node.fInbound <;> cases hdisconnect : node.fDisconnect <;>
      simp [CNode.evictable, hwhite, hinbound, hdisconnect]

/-! ### The scan of the groups -/

/-- What the scan knows of the candidates it has seen. -/
structure NetGroupScan.Knows (s : NetGroupScan) (seen : List NodeEvictionCandidate) : Prop where
  groups : ∀ g, s.mapNetGroupNodes g = seen.filter fun node => node.nKeyedNetGroup = g
  size_le : ∀ g, (s.mapNetGroupNodes g).length ≤ s.nMostConnections
  most : 0 < s.nMostConnections → ∃ na first, s.naMostConnections = some na ∧ (s.mapNetGroupNodes na).head? = some first ∧
    (s.mapNetGroupNodes na).length = s.nMostConnections ∧ first.nTimeConnected = s.nMostConnectionsTime
  time_le : ∀ g first, (s.mapNetGroupNodes g).length = s.nMostConnections → (s.mapNetGroupNodes g).head? = some first →
    first.nTimeConnected ≤ s.nMostConnectionsTime

namespace NetGroupScan

lemma knows_start : start.Knows [] :=
  ⟨fun _ => rfl, fun _ => le_rfl, fun h => absurd h (lt_irrefl 0), fun _ _ _ h => by cases h⟩

lemma Knows.visit {s : NetGroupScan} {seen : List NodeEvictionCandidate} (h : s.Knows seen) (node : NodeEvictionCandidate) :
    (s.visit node).Knows (seen ++ [node]) := by
  have hgroups : ∀ g, Function.update s.mapNetGroupNodes node.nKeyedNetGroup
      (s.mapNetGroupNodes node.nKeyedNetGroup ++ [node]) g =
        (seen ++ [node]).filter fun node => node.nKeyedNetGroup = g := by
    intro g
    rw [filter_append]
    by_cases hg : g = node.nKeyedNetGroup
    · rw [hg, update_self, h.groups]
      simp
    · rw [update_of_ne hg, h.groups]
      simp [Ne.symm hg]
  have hsize := h.size_le node.nKeyedNetGroup
  have hhead : ∃ first, (s.mapNetGroupNodes node.nKeyedNetGroup ++ [node]).head? = some first ∧
      (s.mapNetGroupNodes node.nKeyedNetGroup ++ [node]).headD node = first := by
    cases s.mapNetGroupNodes node.nKeyedNetGroup with
    | nil => exact ⟨node, rfl, rfl⟩
    | cons first rest => exact ⟨first, rfl, rfl⟩
  obtain ⟨first, hfirst, hfirstD⟩ := hhead
  unfold NetGroupScan.visit
  dsimp only
  rw [hfirstD, length_append, length_singleton]
  split_ifs with hmore
  · refine ⟨hgroups, fun g => ?_, fun _ => ⟨_, first, rfl, ?_, ?_, rfl⟩, fun g other hlength hother => ?_⟩
    · dsimp only
      by_cases hg : g = node.nKeyedNetGroup
      · rw [hg, update_self, length_append, length_singleton]
      · rw [update_of_ne hg]
        have hle := h.size_le g
        omega
    · dsimp only
      rw [update_self, hfirst]
    · dsimp only
      rw [update_self, length_append, length_singleton]
    · dsimp only at hlength hother ⊢
      by_cases hg : g = node.nKeyedNetGroup
      · rw [hg, update_self, hfirst] at hother
        rw [Option.some.inj hother]
      · rw [update_of_ne hg] at hlength hother
        have hle := h.size_le g
        have htime := h.time_le g other
        obtain hlt | ⟨heq, hlt⟩ := hmore
        · omega
        · exact (htime (by omega) hother).trans hlt.le
  · rw [not_or, not_lt, not_and, not_lt] at hmore
    obtain ⟨hle, htime⟩ := hmore
    refine ⟨hgroups, fun g => ?_, fun _ => ?_, fun g other hlength hother => ?_⟩
    · dsimp only
      by_cases hg : g = node.nKeyedNetGroup
      · rw [hg, update_self, length_append, length_singleton]
        exact hle
      · rw [update_of_ne hg]
        exact h.size_le g
    · -- The group that is chosen is another one, since this one had room.
      obtain ⟨na, chosen, hna, hchosen, hmost, hchosenTime⟩ := h.most (by omega)
      have hne : na ≠ node.nKeyedNetGroup := by
        rintro rfl
        omega
      refine ⟨na, chosen, hna, ?_, ?_, hchosenTime⟩
      · dsimp only
        rw [update_of_ne hne, hchosen]
      · dsimp only
        rw [update_of_ne hne, hmost]
    · dsimp only at hlength hother ⊢
      by_cases hg : g = node.nKeyedNetGroup
      · rw [hg, update_self] at hlength hother
        rw [length_append, length_singleton] at hlength
        rw [hfirst] at hother
        rw [← Option.some.inj hother]
        exact htime hlength
      · rw [update_of_ne hg] at hlength hother
        exact h.time_le g other hlength hother

lemma knows_foldl (nodes : List NodeEvictionCandidate) {s : NetGroupScan} {seen : List NodeEvictionCandidate}
    (h : s.Knows seen) : (nodes.foldl NetGroupScan.visit s).Knows (seen ++ nodes) := by
  induction nodes generalizing s seen with
  | nil => rwa [append_nil]
  | cons node nodes ih =>
    have hrest := ih (h.visit node)
    rwa [append_assoc, singleton_append] at hrest

end NetGroupScan

def groupSize (nodes : List NodeEvictionCandidate) (g : ℕ) : ℕ := nodes.countP fun node => node.nKeyedNetGroup = g

lemma evictedNode_eq {nodes : List NodeEvictionCandidate} (hne : nodes ≠ [])
    (hsorted : nodes.Pairwise fun a b => b.nTimeConnected ≤ a.nTimeConnected) :
    ∃ marked ∈ nodes, evictedNode nodes = some marked.id ∧
      (∀ g, groupSize nodes g ≤ groupSize nodes marked.nKeyedNetGroup) ∧
      ∀ q ∈ nodes, groupSize nodes q.nKeyedNetGroup = groupSize nodes marked.nKeyedNetGroup →
        q.nTimeConnected ≤ marked.nTimeConnected := by
  have hknows := NetGroupScan.knows_foldl nodes NetGroupScan.knows_start
  rw [nil_append] at hknows
  have hlength : ∀ g, ((nodes.foldl NetGroupScan.visit .start).mapNetGroupNodes g).length = groupSize nodes g := by
    intro g
    rw [hknows.groups, groupSize, countP_eq_length_filter]
  have hmember : ∀ q ∈ nodes, q ∈ (nodes.foldl NetGroupScan.visit .start).mapNetGroupNodes q.nKeyedNetGroup := by
    intro q hq
    rw [hknows.groups]
    exact mem_filter.mpr ⟨hq, decide_eq_true rfl⟩
  obtain ⟨q, hq⟩ := exists_mem_of_ne_nil nodes hne
  have hpos : 0 < (nodes.foldl NetGroupScan.visit .start).nMostConnections :=
    (length_pos_of_mem (hmember q hq)).trans_le (hknows.size_le _)
  obtain ⟨na, marked, hna, hmarked, hmost, htime⟩ := hknows.most hpos
  have hmem : marked ∈ nodes ∧ marked.nKeyedNetGroup = na := by
    have hin := mem_of_head? hmarked
    rw [hknows.groups, mem_filter, decide_eq_true_eq] at hin
    exact hin
  obtain ⟨hin, rfl⟩ := hmem
  refine ⟨marked, hin, ?_, fun g => ?_, fun q hq hsize => ?_⟩
  · unfold evictedNode
    dsimp only
    rw [hna]
    dsimp only [bind, Option.bind]
    rw [hmarked]
    rfl
  · rw [← hlength, ← hlength, hmost]
    exact hknows.size_le g
  · -- The first node of the group is at least as young as the others.
    rw [← hlength, ← hlength, hmost] at hsize
    have hqin := hmember q hq
    have hgroup := hsorted.filter fun node => node.nKeyedNetGroup = q.nKeyedNetGroup
    rw [← hknows.groups] at hgroup
    cases hcases : (nodes.foldl NetGroupScan.visit .start).mapNetGroupNodes q.nKeyedNetGroup with
    | nil =>
      rw [hcases] at hqin
      cases hqin
    | cons first rest =>
      rw [hcases] at hqin hgroup
      have hfirst := hknows.time_le q.nKeyedNetGroup first hsize (by rw [hcases]; rfl)
      rw [← htime] at hfirst
      obtain rfl | hrest := mem_cons.mp hqin
      · exact hfirst
      · exact ((pairwise_cons.mp hgroup).1 q hrest).trans hfirst

/-! ### The passes -/

section Passes

variable (sorts : EvictionSorts) (candidates : List NodeEvictionCandidate)

/-- The candidates by the pass that protects them. -/
structure IsProtection (netGroup ping tx block older left : List NodeEvictionCandidate) : Prop where
  perm : (netGroup ++ ping ++ tx ++ block ++ older ++ left).Perm candidates
  netGroup : netGroup.length = 4 ∧ ∀ p ∈ netGroup, ∀ q ∈ left, q.nKeyedNetGroup ≤ p.nKeyedNetGroup
  ping : ping.length = 8 ∧ ∀ p ∈ ping, ∀ q ∈ left, p.nMinPingUsecTime ≤ q.nMinPingUsecTime
  tx : tx.length = 4 ∧ ∀ p ∈ tx, ∀ q ∈ left, compareNodeTXTime p q = false
  block : block.length = 4 ∧ ∀ p ∈ block, ∀ q ∈ left, compareNodeBlockTime p q = false
  older : older.length = (older.length + left.length) / 2 ∧
    ∀ p ∈ older, ∀ q ∈ left, p.nTimeConnected ≤ q.nTimeConnected

lemma unprotected_few (hfew : candidates.length ≤ 20) : unprotected sorts candidates = [] := by
  unfold unprotected
  dsimp only
  split_ifs with h₁ h₂ h₃ h₄ h₅
  · rfl
  · rfl
  · rfl
  · rfl
  · rfl
  · -- Behind four passes nothing is left.
    exfalso
    refine h₅ (isEmpty_iff.mpr (eq_nil_of_length_eq_zero ?_))
    rw [length_cutLast, (sorts.blockTime.perm _).length_eq, length_cutLast, (sorts.txTime.perm _).length_eq, length_cutLast,
      (sorts.minPing.perm _).length_eq, length_cutLast, (sorts.netGroup.perm _).length_eq]
    omega

lemma unprotected_many (hmany : 20 < candidates.length) :
    ∃ netGroup ping tx block older, IsProtection candidates netGroup ping tx block older (unprotected sorts candidates) ∧
      unprotected sorts candidates ≠ [] ∧
      (unprotected sorts candidates).Pairwise fun a b => b.nTimeConnected ≤ a.nTimeConnected := by
  obtain ⟨netGroup, hperm₁, hlength₁, hcut₁⟩ := sorts.netGroup.cut 4 candidates
  set left₁ := cutLast 4 (sorts.netGroup.sort candidates) with hleft₁
  obtain ⟨ping, hperm₂, hlength₂, hcut₂⟩ := sorts.minPing.cut 8 left₁
  set left₂ := cutLast 8 (sorts.minPing.sort left₁) with hleft₂
  obtain ⟨tx, hperm₃, hlength₃, hcut₃⟩ := sorts.txTime.cut 4 left₂
  set left₃ := cutLast 4 (sorts.txTime.sort left₂) with hleft₃
  obtain ⟨block, hperm₄, hlength₄, hcut₄⟩ := sorts.blockTime.cut 4 left₃
  set left₄ := cutLast 4 (sorts.blockTime.sort left₃) with hleft₄
  obtain ⟨older, hperm₅, hlength₅, hcut₅⟩ := sorts.timeConnected.cut (left₄.length / 2) left₄
  set left₅ := cutLast (left₄.length / 2) (sorts.timeConnected.sort left₄)
  have hsize₁ := hperm₁.length_eq
  have hsize₂ := hperm₂.length_eq
  have hsize₃ := hperm₃.length_eq
  have hsize₄ := hperm₄.length_eq
  have hsize₅ := hperm₅.length_eq
  rw [length_append] at hsize₁ hsize₂ hsize₃ hsize₄ hsize₅
  have hnonempty : ∀ l : List NodeEvictionCandidate, 0 < l.length → ¬l.isEmpty = true := by
    intro l hpos hempty
    rw [isEmpty_iff.mp hempty] at hpos
    exact lt_irrefl 0 hpos
  have hresult : unprotected sorts candidates = left₅ := by
    unfold unprotected
    dsimp only
    rw [if_neg (hnonempty _ (by omega)), ← hleft₁, if_neg (hnonempty _ (by omega)), ← hleft₂,
      if_neg (hnonempty _ (by omega)), ← hleft₃, if_neg (hnonempty _ (by omega)), ← hleft₄,
      if_neg (hnonempty _ (by omega))]
  rw [hresult]
  -- What is left last has been left by every pass.
  have hsub₄ : ∀ q ∈ left₅, q ∈ left₄ := fun q hq => hperm₅.subset (mem_append_right _ hq)
  have hsub₃ : ∀ q ∈ left₅, q ∈ left₃ := fun q hq => hperm₄.subset (mem_append_right _ (hsub₄ q hq))
  have hsub₂ : ∀ q ∈ left₅, q ∈ left₂ := fun q hq => hperm₃.subset (mem_append_right _ (hsub₃ q hq))
  have hsub₁ : ∀ q ∈ left₅, q ∈ left₁ := fun q hq => hperm₂.subset (mem_append_right _ (hsub₂ q hq))
  refine ⟨netGroup, ping, tx, block, older, ⟨?_, ⟨by omega, fun p hp q hq => ?_⟩, ⟨by omega, fun p hp q hq => ?_⟩,
    ⟨by omega, fun p hp q hq => hcut₃ p hp q (hsub₃ q hq)⟩, ⟨by omega, fun p hp q hq => hcut₄ p hp q (hsub₄ q hq)⟩,
    ⟨by omega, fun p hp q hq => ?_⟩⟩, ne_nil_of_length_pos (by omega), ?_⟩
  · simp only [append_assoc]
    exact ((hperm₅.append_left _ |>.trans hperm₄ |>.append_left _ |>.trans hperm₃ |>.append_left _ |>.trans hperm₂)
      |>.append_left _ |>.trans hperm₁)
  · have hle := hcut₁ p hp q (hsub₁ q hq)
    rwa [compareNetGroupKeyed, decide_eq_false_iff_not, not_lt] at hle
  · have hle := hcut₂ p hp q (hsub₂ q hq)
    rwa [reverseCompareNodeMinPingTime, decide_eq_false_iff_not, not_lt] at hle
  · have hle := hcut₅ p hp q hq
    rwa [reverseCompareNodeTimeConnected, decide_eq_false_iff_not, not_lt] at hle
  · have hsorted := ((sorts.timeConnected.sorted left₄).sublist (take_sublist _ _ : left₅.Sublist _))
    refine hsorted.imp fun hle => ?_
    rwa [reverseCompareNodeTimeConnected, decide_eq_false_iff_not, not_lt] at hle

end Passes

/-! ### The peer that is marked -/

lemma disconnectNode_eq {vNodes : List CNode} (hnodup : (vNodes.map CNode.id).Nodup) {node : CNode} (hnode : node ∈ vNodes) :
    disconnectNode node.id vNodes =
      (true, vNodes.map fun other => if other.id = node.id then { other with fDisconnect := true } else other) := by
  induction vNodes with
  | nil => cases hnode
  | cons first vNodes ih =>
    rw [map_cons, nodup_cons] at hnodup
    rw [disconnectNode, map_cons]
    by_cases heq : first.id = node.id
    · have hrest : ∀ other ∈ vNodes, other.id ≠ node.id := by
        intro other hother hid
        exact hnodup.1 (mem_map.mpr ⟨other, hother, hid.trans heq.symm⟩)
      rw [if_pos heq, if_pos heq]
      refine congrArg (fun l => (true, _ :: l)) ?_
      refine (map_id vNodes).symm.trans (map_congr_left fun other hother => ?_)
      rw [if_neg (hrest other hother), id]
    · have hin : node ∈ vNodes := (mem_cons.mp hnode).resolve_left fun hsame => heq (by rw [hsame])
      rw [if_neg heq, if_neg heq, ih hnodup.2 hin]

/-- A peer is marked if and only if there are more than 20 candidates. Each pass has protected its number of other
candidates, and the marked one is the youngest of the largest groups among those that are left. -/
theorem attemptToEvictConnection_protects (sorts : EvictionSorts) (nRelevantServices : ℕ) (c : Connections) :
    ∃ r, attemptToEvictConnection sorts nRelevantServices c.vNodes = some r ∧
      (r.1 = true ↔ 20 < (c.vNodes.filter CNode.evictable).length) ∧
      (r.1 = false → r.2 = c.vNodes) ∧
      (r.1 = true → ∃ node ∈ c.vNodes, node.evictable = true ∧
        r.2 = c.vNodes.map (fun other => if other.id = node.id then { other with fDisconnect := true } else other) ∧
        ∃ netGroup ping tx block older left,
          IsProtection (evictionCandidates nRelevantServices c.vNodes) netGroup ping tx block older left ∧
          ((netGroup ++ ping ++ tx ++ block ++ older ++ left).map NodeEvictionCandidate.id).Nodup ∧
          .ofNode nRelevantServices node ∈ left ∧
          (∀ g, groupSize left g ≤ groupSize left node.nKeyedNetGroup) ∧
          ∀ q ∈ left, groupSize left q.nKeyedNetGroup = groupSize left node.nKeyedNetGroup →
            q.nTimeConnected ≤ node.nTimeConnected) := by
  have hcandidates := evictionCandidates_eq nRelevantServices c.vNodes
  have hlength : (evictionCandidates nRelevantServices c.vNodes).length = (c.vNodes.filter CNode.evictable).length := by
    rw [hcandidates, length_map]
  have hnodup : ((evictionCandidates nRelevantServices c.vNodes).map NodeEvictionCandidate.id).Nodup := by
    rw [hcandidates, map_map]
    exact c.nodup.sublist (filter_sublist.map _)
  unfold attemptToEvictConnection
  dsimp only
  by_cases hmany : 20 < (evictionCandidates nRelevantServices c.vNodes).length
  · obtain ⟨netGroup, ping, tx, block, older, hprotection, hne, hsorted⟩ := unprotected_many sorts _ hmany
    obtain ⟨marked, hmarked, hevicted, hlargest, hyoungest⟩ := evictedNode_eq hne hsorted
    have hin : marked ∈ evictionCandidates nRelevantServices c.vNodes :=
      hprotection.perm.subset (mem_append_right _ hmarked)
    rw [hcandidates] at hin
    obtain ⟨node, hnode, rfl⟩ := mem_map.mp hin
    obtain ⟨hvNodes, hevictable⟩ := mem_filter.mp hnode
    have hdisconnect : disconnectNode (NodeEvictionCandidate.ofNode nRelevantServices node).id c.vNodes = _ :=
      disconnectNode_eq c.nodup hvNodes
    rw [if_neg (by rwa [List.isEmpty_iff]), hevicted]
    dsimp only [bind, Option.bind]
    rw [hdisconnect, ← hlength]
    refine ⟨_, rfl, ⟨fun _ => hmany, fun _ => rfl⟩, fun h => absurd h.symm Bool.false_ne_true, fun _ => ⟨node, hvNodes, hevictable, rfl,
      netGroup, ping, tx, block, older, _, hprotection, ?_, hmarked, hlargest, hyoungest⟩⟩
    exact (hprotection.perm.map _).nodup_iff.mpr hnodup
  · rw [unprotected_few sorts _ (not_lt.mp hmany), ← hlength]
    exact ⟨_, rfl, ⟨fun h => absurd h Bool.false_ne_true, fun h => absurd h hmany⟩, fun _ => rfl,
      fun h => absurd h Bool.false_ne_true⟩

def evictionSorts : EvictionSorts where
  netGroup := .byKey (·.nKeyedNetGroup) fun _ _ => rfl
  minPing := .byKey (fun a => OrderDual.toDual a.nMinPingUsecTime) fun _ _ => rfl
  txTime := .byKey (fun a => toLex (a.nLastTXTime, toLex (a.fRelayTxes, toLex (!a.fBloomFilter,
    OrderDual.toDual a.nTimeConnected)))) fun a b => by
      unfold compareNodeTXTime
      rcases lt_trichotomy a.nLastTXTime b.nLastTXTime with hlt | heq | hgt
      · simp [Prod.Lex.toLex_lt_toLex, hlt, hlt.ne]
      · cases ha : a.fRelayTxes <;> cases hb : b.fRelayTxes <;> cases ha' : a.fBloomFilter <;>
          cases hb' : b.fBloomFilter <;> simp [Prod.Lex.toLex_lt_toLex, heq]
      · simp [Prod.Lex.toLex_lt_toLex, hgt.not_gt, hgt.ne']
  blockTime := .byKey (fun a => toLex (a.nLastBlockTime, toLex (a.fRelevantServices,
    OrderDual.toDual a.nTimeConnected))) fun a b => by
      unfold compareNodeBlockTime
      rcases lt_trichotomy a.nLastBlockTime b.nLastBlockTime with hlt | heq | hgt
      · simp [Prod.Lex.toLex_lt_toLex, hlt, hlt.ne]
      · cases ha : a.fRelevantServices <;> cases hb : b.fRelevantServices <;> simp [Prod.Lex.toLex_lt_toLex, heq]
      · simp [Prod.Lex.toLex_lt_toLex, hgt.not_gt, hgt.ne']
  timeConnected := .byKey (fun a => OrderDual.toDual a.nTimeConnected) fun _ _ => rfl

/-- 22 inbound peers in five network groups. -/
def twentyTwoPeers : Connections where
  vNodes := (List.range 22).map fun i : ℕ => ⟨i, false, true, false, i % 7, i % 5, i % 3, i % 4, 1, true, false, i % 5⟩
  nodup := by decide

theorem attemptToEvictConnection_protects_twentyTwoPeers :
    ∃ r, attemptToEvictConnection evictionSorts 1 twentyTwoPeers.vNodes = some r ∧
      (r.2.filter (·.fDisconnect)).map (·.id) = [6] ∧
      ∃ node ∈ twentyTwoPeers.vNodes, ∃ netGroup ping tx block older left,
        IsProtection (evictionCandidates 1 twentyTwoPeers.vNodes) netGroup ping tx block older left ∧
          .ofNode 1 node ∈ left := by
  obtain ⟨r, hrun, hiff, -, hmarked⟩ := attemptToEvictConnection_protects evictionSorts 1 twentyTwoPeers
  have hids : (attemptToEvictConnection evictionSorts 1 twentyTwoPeers.vNodes).map
      (fun r => (r.2.filter (·.fDisconnect)).map (·.id)) = some [6] := by decide +kernel
  obtain ⟨node, hnode, -, -, netGroup, ping, tx, block, older, left, hprotection, -, hleft, -⟩ :=
    hmarked (hiff.mpr (by decide))
  rw [hrun] at hids
  exact ⟨r, hrun, Option.some.inj hids, node, hnode, netGroup, ping, tx, block, older, left, hprotection, hleft⟩

end MutableBitcoin
