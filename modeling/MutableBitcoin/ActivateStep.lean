import MutableBitcoin.ActivateBestChain

/-!
# A step of the activation

`ActivateBestChainStep` disconnects down to the fork and connects the blocks above it, in chunks
that come to one list.
-/

namespace MutableBitcoin
open Lib List Function

namespace BlockStatus

variable (st : BlockStatus) (n : Fin 8)

@[simp] lemma haveData_raiseValidity : (st.raiseValidity n).haveData = st.haveData := by
  unfold raiseValidity
  split_ifs <;> rfl

@[simp] lemma failedValid_raiseValidity : (st.raiseValidity n).failedValid = st.failedValid := by
  unfold raiseValidity
  split_ifs <;> rfl

@[simp] lemma failedChild_raiseValidity : (st.raiseValidity n).failedChild = st.failedChild := by
  unfold raiseValidity
  split_ifs <;> rfl

lemma le_raiseValidity : st.validity ≤ (st.raiseValidity n).validity := by
  unfold raiseValidity
  split_ifs with h
  · rw [Bool.and_eq_true, decide_eq_true_eq] at h
    exact h.2.le
  · exact le_rfl

end BlockStatus

namespace ChainState

variable {ctx : ChainContext} {s s' s'' : ChainState} {a b c f old p t w x : Uint256}
  {l l₁ l₂ pre : List Uint256} {e : StepEnd}

section Frame

/-- What disconnecting and connecting blocks leaves alone. -/
structure Frame (s s' : ChainState) : Prop extends SameTree s s' where
  validity : ∀ b, (s.entry b).nStatus.validity ≤ (s'.entry b).nStatus.validity
  unlinked : s'.mapBlocksUnlinked = s.mapBlocksUnlinked
  sequenceId : s'.nBlockSequenceId = s.nBlockSequenceId
  reverseSequenceId : s'.nBlockReverseSequenceId = s.nBlockReverseSequenceId
  lastPreciousChainwork : s'.nLastPreciousChainwork = s.nLastPreciousChainwork

lemma Frame.refl (s : ChainState) : Frame s s :=
  ⟨SameTree.refl s, fun _ => le_rfl, rfl, rfl, rfl, rfl⟩

lemma Frame.trans (h : Frame s s') (h' : Frame s' s'') : Frame s s'' where
  toSameTree := h.toSameTree.trans h'.toSameTree
  validity b := (h.validity b).trans (h'.validity b)
  unlinked := h'.unlinked.trans h.unlinked
  sequenceId := h'.sequenceId.trans h.sequenceId
  reverseSequenceId := h'.reverseSequenceId.trans h.reverseSequenceId
  lastPreciousChainwork := h'.lastPreciousChainwork.trans h.lastPreciousChainwork

lemma frame_eraseCandidate (b : Uint256) : Frame s (s.eraseCandidate b) :=
  ⟨sameTree_eraseCandidate b, fun _ => le_rfl, rfl, rfl, rfl, rfl⟩

lemma frame_modifyEntry {g : CBlockIndex → CBlockIndex}
    (hg : ∀ e, ∃ pos st, g e = { e with nUndoPos := pos, nStatus := st } ∧
      st.haveData = e.nStatus.haveData ∧ e.nStatus.validity ≤ st.validity) :
    Frame s (s.modifyEntry b g) := by
  have hentry : ∀ d, ∃ pos st, (s.modifyEntry b g).entry d = { s.entry d with nUndoPos := pos, nStatus := st } ∧
      st.haveData = (s.entry d).nStatus.haveData ∧ (s.entry d).nStatus.validity ≤ st.validity := by
    intro d
    unfold modifyEntry
    by_cases hd : d = b
    · subst hd
      dsimp only
      rw [update_self]
      exact hg _
    · refine ⟨(s.entry d).nUndoPos, (s.entry d).nStatus, ?_, rfl, le_rfl⟩
      dsimp only
      rw [update_of_ne hd]
  constructor
  case toSameTree =>
    constructor
    case map => rfl
    all_goals
      intro d
      obtain ⟨pos, st, heq, hdata, -⟩ := hentry d
      rw [heq]
    exact hdata
  case validity =>
    intro d
    obtain ⟨pos, st, heq, -, hvalidity⟩ := hentry d
    rw [heq]
    exact hvalidity
  all_goals rfl

lemma frame_modifyStatus (b : Uint256) {g : BlockStatus → BlockStatus}
    (hdata : ∀ st, (g st).haveData = st.haveData) (hvalidity : ∀ st, (g st).validity = st.validity) :
    Frame s (s.modifyStatus b g) :=
  frame_modifyEntry fun e => ⟨e.nUndoPos, g e.nStatus, rfl, hdata _, (hvalidity _).ge⟩

lemma failedValid_mark_iff :
    ((s.modifyStatus b (fun st => { st with failedValid := true })).entry c).nStatus.failedValid = true ↔
      c = b ∨ (s.entry c).nStatus.failedValid = true := by
  unfold modifyStatus modifyEntry
  by_cases hc : c = b
  · subst hc
    simp
  · simp [hc]

lemma failed_iff {e : CBlockIndex} :
    e.nStatus.failed = true ↔ e.nStatus.failedValid = true ∨ e.nStatus.failedChild = true := by
  unfold BlockStatus.failed
  exact Bool.or_eq_true_iff

lemma failed_mark_iff :
    ((s.modifyStatus b (fun st => { st with failedValid := true })).entry c).nStatus.failed = true ↔
      c = b ∨ (s.entry c).nStatus.failed = true := by
  unfold modifyStatus modifyEntry BlockStatus.failed
  by_cases hc : c = b
  · subst hc
    simp
  · simp [hc]

/-- The failure flags are unchanged. -/
structure SameFlags (s s' : ChainState) : Prop where
  failedValid : ∀ b, (s'.entry b).nStatus.failedValid = (s.entry b).nStatus.failedValid
  failedChild : ∀ b, (s'.entry b).nStatus.failedChild = (s.entry b).nStatus.failedChild

lemma SameFlags.refl (s : ChainState) : SameFlags s s := ⟨fun _ => rfl, fun _ => rfl⟩

lemma SameFlags.trans (h : SameFlags s s') (h' : SameFlags s' s'') : SameFlags s s'' :=
  ⟨fun b => (h'.failedValid b).trans (h.failedValid b), fun b => (h'.failedChild b).trans (h.failedChild b)⟩

lemma SameFlags.failed (h : SameFlags s s') (b : Uint256) :
    (s'.entry b).nStatus.failed = (s.entry b).nStatus.failed := by
  unfold BlockStatus.failed
  rw [h.failedValid, h.failedChild]

end Frame

section Connect

/-- The blocks of `pre` were connected: the chain has them at its end, and the candidates that are worse
than one of them are gone. -/
structure Extended (ctx : ChainContext) (s s' : ChainState) (pre : List Uint256) : Prop extends
    Frame s s', SameFlags s s' where
  chain : s'.chainActive = s.chainActive ++ pre
  candidates : ∀ c, c ∈ s'.setBlockIndexCandidates ↔
    c ∈ s.setBlockIndexCandidates ∧ ∀ x ∈ pre, rank ctx s x ≤ rank ctx s c

lemma Extended.nil (ctx : ChainContext) (s : ChainState) : Extended ctx s s [] where
  toFrame := Frame.refl s
  toSameFlags := SameFlags.refl s
  chain := (append_nil _).symm
  candidates c := by simp

lemma Extended.append (h : Extended ctx s s' pre) (h' : Extended ctx s' s'' l) :
    Extended ctx s s'' (pre ++ l) where
  toFrame := h.toFrame.trans h'.toFrame
  toSameFlags := h.toSameFlags.trans h'.toSameFlags
  chain := by rw [h'.chain, h.chain, append_assoc]
  candidates c := by
    rw [h'.candidates, h.candidates, forall_mem_append, and_assoc]
    simp only [h.toSameTree.rank]

lemma Extended.tip_concat (h : Extended ctx s s' (pre ++ [x])) : s'.tip = some x := by
  unfold tip
  rw [h.chain, ← append_assoc, getLast?_concat]

lemma connected_eq (ctx : ChainContext) (b : Uint256) (e : CBlockIndex) :
    ∃ pos st, connected ctx b e = { e with nUndoPos := pos, nStatus := st } ∧
      st.haveData = e.nStatus.haveData ∧ e.nStatus.validity ≤ st.validity ∧
      st.failedValid = e.nStatus.failedValid ∧ st.failedChild = e.nStatus.failedChild := by
  unfold connected
  by_cases hdone : (b = ctx.hashGenesisBlock || e.nStatus.haveUndo && e.nStatus.isValid BLOCK_VALID_SCRIPTS) = true
  · rw [if_pos hdone]
    exact ⟨e.nUndoPos, e.nStatus, rfl, rfl, le_rfl, rfl, rfl⟩
  · rw [if_neg hdone]
    exact ⟨_, _, rfl, by simp,
      BlockStatus.le_raiseValidity { e.nStatus with haveUndo := true } _, by simp, by simp⟩

lemma frame_connect (chain : List Uint256) :
    Frame s { s.modifyEntry b (connected ctx b) with chainActive := chain } := by
  have hframe : Frame s (s.modifyEntry b (connected ctx b)) := by
    apply frame_modifyEntry
    intro e
    obtain ⟨pos, st, heq, hdata, hvalidity, -⟩ := connected_eq ctx b e
    exact ⟨pos, st, heq, hdata, hvalidity⟩
  exact ⟨⟨rfl, hframe.pprev, hframe.nHeight, hframe.nChainWork, hframe.nSequenceId, hframe.nTx, hframe.nChainTx,
    hframe.haveData⟩, hframe.validity, rfl, rfl, rfl, rfl⟩

lemma sameFlags_connect (chain : List Uint256) :
    SameFlags s { s.modifyEntry b (connected ctx b) with chainActive := chain } := by
  have hentry : ∀ d, ((s.modifyEntry b (connected ctx b)).entry d).nStatus.failedValid =
        (s.entry d).nStatus.failedValid ∧
      ((s.modifyEntry b (connected ctx b)).entry d).nStatus.failedChild = (s.entry d).nStatus.failedChild := by
    intro d
    unfold modifyEntry
    dsimp only
    by_cases hd : d = b
    · subst hd
      obtain ⟨pos, st, heq, -, -, hvalid, hchild⟩ := connected_eq ctx d (s.entry d)
      rw [update_self, heq]
      exact ⟨hvalid, hchild⟩
    · rw [update_of_ne hd]
      exact ⟨rfl, rfl⟩
  exact ⟨fun d => (hentry d).1, fun d => (hentry d).2⟩

lemma connectTip_valid (hp : (s.entry b).pprev = s.tip) (hvalid : ctx.connectBlock b = .valid)
    (hleft : ∃ c ∈ s.setBlockIndexCandidates, rank ctx s b ≤ rank ctx s c) :
    ∃ s₁ s₂, connectTip ctx s b = .ok (true, s₁) ∧ pruneBlockIndexCandidates ctx s₁ = .ok s₂ ∧
      s₂.tip = some b ∧ Extended ctx s s₂ [b] := by
  let s₁ : ChainState := { s.modifyEntry b (connected ctx b) with chainActive := s.chainActive ++ [b] }
  have htip : s₁.tip = some b := getLast?_concat
  have hframe : Frame s s₁ := frame_connect _
  have hflags : SameFlags s s₁ := sameFlags_connect _
  let kept := s.setBlockIndexCandidates.filter (fun c => !workComparator ctx s₁ c b)
  have hkept : ∀ c, c ∈ kept ↔ c ∈ s.setBlockIndexCandidates ∧ rank ctx s b ≤ rank ctx s c := by
    intro c
    rw [mem_filter, Bool.not_eq_true', workComparator_eq_false_iff, hframe.rank, hframe.rank]
  have hnonempty : kept.isEmpty = false := by
    obtain ⟨c, hc, hle⟩ := hleft
    rw [isEmpty_eq_false_iff_exists_mem]
    exact ⟨c, (hkept c).mpr ⟨hc, hle⟩⟩
  refine ⟨s₁, { s₁ with setBlockIndexCandidates := kept }, ?_, ?_, htip, ?_⟩
  · unfold connectTip
    rw [if_neg (not_not.mpr hp), hvalid]
  · unfold pruneBlockIndexCandidates
    rw [htip]
    change (if kept.isEmpty = true then _ else _) = _
    rw [hnonempty]
    rfl
  · constructor
    case toFrame => exact hframe.trans ⟨SameTree.of_entry rfl rfl, fun _ => le_rfl, rfl, rfl, rfl, rfl⟩
    case toSameFlags => exact ⟨hflags.failedValid, hflags.failedChild⟩
    case chain => rfl
    case candidates =>
      intro c
      rw [forall_mem_singleton]
      exact hkept c

lemma connectTip_invalid (hp : (s.entry b).pprev = some t) (ht : s.tip = some t)
    (hinvalid : ctx.connectBlock b = .invalid) :
    connectTip ctx s b = .ok (false, s.invalidBlockFound b) := by
  unfold connectTip
  rw [hp, ht, if_neg (not_not.mpr rfl), hinvalid]
  rfl

lemma connectTip_corrupted (hp : (s.entry b).pprev = s.tip) (hcorrupted : ctx.connectBlock b = .corrupted) :
    connectTip ctx s b = .ok (false, s) := by
  unfold connectTip
  rw [if_neg (not_not.mpr hp), hcorrupted]

end Connect

section Outcome

/-- More work than the old tip. -/
def improvesOn (s : ChainState) (old b : Uint256) : Prop := (s.entry old).nChainWork < (s.entry b).nChainWork

lemma SameTree.improvesOn_iff (h : SameTree s s') : improvesOn s' old b ↔ improvesOn s old b := by
  unfold improvesOn
  rw [h.nChainWork, h.nChainWork]

/-- The loop passes these blocks without an end. -/
def ConnectedOnly (ctx : ChainContext) (s : ChainState) (old : Uint256) (l : List Uint256) : Prop :=
  ∀ b ∈ l, ctx.connectBlock b = .valid ∧ ¬improvesOn s old b

/-- The ends of the loop over a list of blocks to connect. -/
inductive Outcome (ctx : ChainContext) (s : ChainState) (old : Uint256) (l : List Uint256) :
    StepEnd → ChainState → Prop
  | connected {s' : ChainState} (hl : ConnectedOnly ctx s old l) (hs : Extended ctx s s' l) : Outcome ctx s old l .connected s'
  | improved {s' : ChainState} {pre : List Uint256} {b : Uint256} (hl : pre ++ [b] <+: l) (hpre : ConnectedOnly ctx s old pre)
      (hb : ctx.connectBlock b = .valid) (himproves : improvesOn s old b)
      (hs : Extended ctx s s' (pre ++ [b])) : Outcome ctx s old l .improved s'
  | invalid {s' : ChainState} {pre : List Uint256} {b : Uint256} (hl : pre ++ [b] <+: l) (hpre : ConnectedOnly ctx s old pre)
      (hb : ctx.connectBlock b = .invalid) (hs : Extended ctx s s' pre) :
      Outcome ctx s old l .invalidFound (s'.invalidBlockFound b)
  | corrupted {s' : ChainState} {pre : List Uint256} {b : Uint256} (hl : pre ++ [b] <+: l) (hpre : ConnectedOnly ctx s old pre)
      (hb : ctx.connectBlock b = .corrupted) (hs : Extended ctx s s' pre) : Outcome ctx s old l .invalidFound s'

lemma ConnectedOnly.append (h : ConnectedOnly ctx s old pre) (hs : SameTree s s')
    (h' : ConnectedOnly ctx s' old l) : ConnectedOnly ctx s old (pre ++ l) := by
  unfold ConnectedOnly
  rw [forall_mem_append]
  refine ⟨h, fun b hb => ?_⟩
  rw [← hs.improvesOn_iff]
  exact h' b hb

lemma ConnectedOnly.unique {pre' : List Uint256} (h : ConnectedOnly ctx s old pre)
    (h' : ConnectedOnly ctx s old pre') (hl : pre ++ [b] <+: l) (hl' : pre' ++ [c] <+: l)
    (hb : ¬(ctx.connectBlock b = .valid ∧ ¬improvesOn s old b))
    (hc : ¬(ctx.connectBlock c = .valid ∧ ¬improvesOn s old c)) : pre = pre' ∧ b = c := by
  -- the shorter of two prefixes would have its last block among the blocks before the other end
  have hnot : ∀ {p q : List Uint256} {x y : Uint256}, ConnectedOnly ctx s old q →
      ¬(ctx.connectBlock x = .valid ∧ ¬improvesOn s old x) → p ++ [x] <+: l → q ++ [y] <+: l →
      ¬p.length < q.length := by
    intro p q x y hq hx hp hq' hlt
    have hpq : p ++ [x] <+: q := by
      apply prefix_of_prefix_length_le hp ((prefix_append q [y]).trans hq')
      rw [length_append, length_singleton]
      exact hlt
    exact hx (hq x (hpq.subset (mem_append_right _ (mem_singleton_self x))))
  have hlen : pre.length = pre'.length :=
    le_antisymm (not_lt.mp (hnot h hc hl' hl)) (not_lt.mp (hnot h' hb hl hl'))
  have heq : pre ++ [b] = pre' ++ [c] := by
    apply (prefix_of_prefix_length_le hl hl' _).eq_of_length
    · rw [length_append, length_append, hlen]
      rfl
    · rw [length_append, length_append, hlen]
      rfl
  obtain ⟨hpre, htail⟩ := append_inj heq hlen
  exact ⟨hpre, singleton_inj.mp htail⟩

lemma Outcome.prepend (h : ConnectedOnly ctx s old pre) (hs : Extended ctx s s' pre)
    (h' : Outcome ctx s' old l e s'') : Outcome ctx s old (pre ++ l) e s'' := by
  cases h' with
  | connected hl hs' => exact Outcome.connected (h.append hs.toSameTree hl) (hs.append hs')
  | improved hl hpre hb himproves hs' =>
    rw [hs.toSameTree.improvesOn_iff] at himproves
    refine Outcome.improved ?_ (h.append hs.toSameTree hpre) hb himproves ?_
    · rwa [append_assoc, prefix_append_right_inj]
    · rw [append_assoc]
      exact hs.append hs'
  | invalid hl hpre hb hs' =>
    refine Outcome.invalid ?_ (h.append hs.toSameTree hpre) hb (hs.append hs')
    rwa [append_assoc, prefix_append_right_inj]
  | corrupted hl hpre hb hs' =>
    refine Outcome.corrupted ?_ (h.append hs.toSameTree hpre) hb (hs.append hs')
    rwa [append_assoc, prefix_append_right_inj]

lemma Outcome.extend_right (h : Outcome ctx s old l₁ e s') (he : e ≠ .connected) (l₂ : List Uint256) :
    Outcome ctx s old (l₁ ++ l₂) e s' := by
  cases h with
  | connected => exact absurd rfl he
  | improved hl hpre hb himproves hs =>
    exact Outcome.improved (hl.trans (prefix_append _ _)) hpre hb himproves hs
  | invalid hl hpre hb hs => exact Outcome.invalid (hl.trans (prefix_append _ _)) hpre hb hs
  | corrupted hl hpre hb hs => exact Outcome.corrupted (hl.trans (prefix_append _ _)) hpre hb hs

/-- The blocks lie on each other, the first one on `t`. -/
def Stacked (s : ChainState) (t : Uint256) (l : List Uint256) : Prop :=
  (t :: l).IsChain (fun a b => (s.entry b).pprev = some a)

lemma Stacked.mono (h : Stacked s t l) (hs : SameTree s s') : Stacked s' t l := by
  unfold Stacked
  simp only [hs.pprev]
  exact h

/-- A candidate that is not worse than the blocks keeps the set from becoming empty. -/
theorem connectBlocks_spec (ht : s.tip = some t) (hl : Stacked s t l) (hw : w ∈ s.setBlockIndexCandidates)
    (hmax : ∀ b ∈ l, rank ctx s b ≤ rank ctx s w) :
    ∃ e s', connectBlocks ctx (some old) l s = .ok (e, s') ∧ Outcome ctx s old l e s' := by
  induction l generalizing s t with
  | nil =>
    refine ⟨.connected, s, rfl, Outcome.connected ?_ (Extended.nil ctx s)⟩
    exact fun b hb => absurd hb not_mem_nil
  | cons b l ih =>
    have hp : (s.entry b).pprev = some t := (isChain_cons_cons.mp hl).1
    have hnil : ConnectedOnly ctx s old [] := fun c hc => absurd hc not_mem_nil
    unfold connectBlocks
    cases hverdict : ctx.connectBlock b with
    | invalid =>
      rw [connectTip_invalid hp ht hverdict]
      exact ⟨_, _, rfl, Outcome.invalid ⟨l, rfl⟩ hnil hverdict (Extended.nil ctx s)⟩
    | corrupted =>
      rw [connectTip_corrupted (hp.trans ht.symm) hverdict]
      exact ⟨_, _, rfl, Outcome.corrupted ⟨l, rfl⟩ hnil hverdict (Extended.nil ctx s)⟩
    | valid =>
      obtain ⟨s₁, s₂, hconnect, hprune, htip, hext⟩ := connectTip_valid (hp.trans ht.symm) hverdict
        ⟨w, hw, hmax b mem_cons_self⟩
      have himproves : s₂.improves (some old) = true ↔ improvesOn s old b := by
        unfold improves
        rw [htip, ← hext.toSameTree.improvesOn_iff]
        exact decide_eq_true_iff
      rw [hconnect]
      dsimp only
      rw [hprune]
      dsimp only
      by_cases hbetter : improvesOn s old b
      · rw [if_pos (himproves.mpr hbetter)]
        exact ⟨_, _, rfl, Outcome.improved ⟨l, rfl⟩ hnil hverdict hbetter hext⟩
      · rw [if_neg (mt himproves.mp hbetter)]
        have hkept : w ∈ s₂.setBlockIndexCandidates := by
          rw [hext.candidates, forall_mem_singleton]
          exact ⟨hw, hmax b mem_cons_self⟩
        have hstacked : Stacked s₂ b l := Stacked.mono (isChain_cons_cons.mp hl).2 hext.toSameTree
        have hmax' : ∀ c ∈ l, rank ctx s₂ c ≤ rank ctx s₂ w := by
          intro c hc
          rw [hext.toSameTree.rank, hext.toSameTree.rank]
          exact hmax c (mem_cons_of_mem _ hc)
        obtain ⟨e, s', hrun, hout⟩ := ih htip hstacked hkept hmax'
        have hfirst : ConnectedOnly ctx s old [b] := by
          unfold ConnectedOnly
          rw [forall_mem_singleton]
          exact ⟨hverdict, hbetter⟩
        exact ⟨e, s', hrun, hout.prepend hfirst hext⟩

end Outcome

section Chunks

/-- The blocks of `l` lie on each other, the first one on `f` and `w` the last one. -/
def Above (s : ChainState) (f w : Uint256) (l : List Uint256) : Prop := s.lineage w = l.reverse ++ s.lineage f

lemma Above.mono (h : Above s f w l) (hs : SameTree s s') : Above s' f w l := by
  unfold Above
  rw [hs.lineage, hs.lineage]
  exact h

lemma Above.subset (h : Above s f w l) (hb : b ∈ l) : b ∈ s.lineage w := by
  rw [h]
  exact mem_append_left _ (mem_reverse.mpr hb)

variable (h : Tree s)

include h

lemma Tree.head_lineage (b : Uint256) : ∃ below, s.lineage b = b :: below := by
  cases hp : (s.entry b).pprev with
  | none => exact ⟨[], h.lineage_root hp⟩
  | some p => exact ⟨_, h.lineage_step hp⟩

lemma Tree.eq_of_above_nil (ha : Above s f w []) : w = f := by
  obtain ⟨below, hw⟩ := h.head_lineage w
  obtain ⟨below', hf⟩ := h.head_lineage f
  unfold Above at ha
  rw [hw, hf] at ha
  exact (List.cons.inj ha).1

lemma Tree.length_above (ha : Above s f w l) : (s.entry w).nHeight = (s.entry f).nHeight + l.length := by
  have hlen := congrArg List.length ha
  have hw := h.leveled.length_lineage w
  have hf := h.leveled.length_lineage f
  unfold lineage at hlen
  rw [length_append, length_reverse, hw, hf] at hlen
  omega

lemma Tree.stacked_above (ha : Above s f w l) : Stacked s f l := by
  obtain ⟨below, hf⟩ := h.head_lineage f
  have hchain : (s.lineage w).IsChain (fun a p => (s.entry a).pprev = some p) := h.leveled.isChain_lineage w
  rw [ha, hf, append_cons l.reverse f below, ← reverse_cons] at hchain
  have hfirst := hchain.left_of_append
  rw [isChain_reverse] at hfirst
  exact hfirst

lemma Tree.above_append (ha : Above s f w (l₁ ++ [x] ++ l₂)) : Above s f x (l₁ ++ [x]) ∧ Above s x w l₂ := by
  have hcut : s.lineage w = l₂.reverse ++ x :: (l₁.reverse ++ s.lineage f) := by
    rw [ha, reverse_append, reverse_append, reverse_singleton, append_assoc]
    rfl
  have hx : x :: (l₁.reverse ++ s.lineage f) = s.lineage x := h.leveled.eq_lineage_of_append ⟨_, hcut⟩
  constructor
  · unfold Above
    rw [← hx, reverse_append, reverse_singleton]
    rfl
  · unfold Above
    rw [← hx]
    exact hcut

lemma Tree.nHeight_above (ha : Above s f w (l₁ ++ [x] ++ l₂)) :
    (s.entry x).nHeight = (s.entry f).nHeight + l₁.length + 1 := by
  have hlen := h.length_above (h.above_append ha).1
  rw [length_append, length_singleton] at hlen
  omega

lemma Tree.vpindexToConnect_eq (ha : Above s f w (l₁ ++ l₂)) :
    s.vpindexToConnect w (s.entry f).nHeight ((s.entry f).nHeight + l₁.length) = l₁.reverse := by
  have hhigh : ∀ x ∈ l₂.reverse, ((s.entry f).nHeight + l₁.length : ℤ) < (s.entry x).nHeight := by
    intro x hx
    obtain ⟨l₃, l₄, rfl⟩ := append_of_mem (mem_reverse.mp hx)
    rw [← append_assoc, append_cons] at ha
    have hheight := h.nHeight_above ha
    rw [length_append] at hheight
    omega
  have hlow : ∀ x ∈ l₁.reverse, (s.entry f).nHeight < (s.entry x).nHeight ∧
      (s.entry x).nHeight ≤ (s.entry f).nHeight + l₁.length := by
    intro x hx
    obtain ⟨l₃, l₄, rfl⟩ := append_of_mem (mem_reverse.mp hx)
    rw [append_assoc, cons_append, append_cons] at ha
    have hheight := h.nHeight_above ha
    rw [length_append, length_cons]
    omega
  have hlineage : s.lineage w = l₂.reverse ++ (l₁.reverse ++ s.lineage f) := by
    rw [ha, reverse_append, append_assoc]
  obtain ⟨below, hf⟩ := h.head_lineage f
  unfold vpindexToConnect
  rw [hlineage, dropWhile_append_of_pos (fun x hx => decide_eq_true (hhigh x hx))]
  have hstop : (l₁.reverse ++ s.lineage f).dropWhile
      (fun b => decide (((s.entry f).nHeight + l₁.length : ℤ) < (s.entry b).nHeight)) =
      l₁.reverse ++ s.lineage f := by
    cases hl : l₁.reverse with
    | nil =>
      rw [nil_append, hf, dropWhile_cons_of_neg]
      rw [decide_eq_true_eq]
      omega
    | cons x rest =>
      have hx := (hlow x (by rw [hl]; exact mem_cons_self)).2
      rw [cons_append, dropWhile_cons_of_neg]
      rw [decide_eq_true_eq]
      omega
  rw [hstop, takeWhile_append_of_pos, hf, takeWhile_cons_of_neg, append_nil]
  · simp
  · intro x hx
    rw [decide_eq_true_eq]
    have := (hlow x hx).1
    omega

/-- The chunks come to one list. -/
theorem connectChunks_spec {fuel : ℕ} (ht : s.tip = some f) (ha : Above s f w l)
    (hw : w ∈ s.setBlockIndexCandidates) (hfuel : l.length < fuel) :
    ∃ e s', connectChunks ctx w (some old) fuel (s.entry f).nHeight s = .ok (e, s') ∧
      Outcome ctx s old l e s' := by
  induction fuel generalizing s f l with
  | zero => omega
  | succ fuel ih =>
    have hlen := h.length_above ha
    unfold connectChunks
    by_cases hdone : ((s.entry f).nHeight : ℤ) = (s.entry w).nHeight
    · have hnil : l = [] := length_eq_zero_iff.mp (by omega)
      rw [if_pos hdone, hnil]
      exact ⟨_, _, rfl, Outcome.connected (fun b hb => absurd hb not_mem_nil) (Extended.nil ctx s)⟩
    · rw [if_neg hdone]
      dsimp only
      -- the chunk is the first 32 blocks of the list
      obtain ⟨l₁, l₂, hl, hchunk⟩ : ∃ l₁ l₂, l = l₁ ++ l₂ ∧ l₁.length = min 32 l.length :=
        ⟨l.take 32, l.drop 32, (take_append_drop 32 l).symm, length_take⟩
      subst hl
      have htarget : min (((s.entry f).nHeight : ℤ) + 32) (s.entry w).nHeight =
          (s.entry f).nHeight + l₁.length := by
        rw [length_append] at hchunk hlen
        omega
      rw [htarget, h.vpindexToConnect_eq ha, reverse_reverse]
      have hrank : ∀ b ∈ l₁, rank ctx s b ≤ rank ctx s w := by
        intro b hb
        exact h.rank_le (ha.subset (mem_append_left _ hb))
      have hstacked : Stacked s f l₁ := by
        have hall := h.stacked_above ha
        unfold Stacked at hall ⊢
        rw [← cons_append] at hall
        exact hall.left_of_append
      obtain ⟨e, s', hrun, hout⟩ := connectBlocks_spec ht hstacked hw hrank
      rw [hrun]
      cases e with
      | improved => exact ⟨_, _, rfl, hout.extend_right (by decide) l₂⟩
      | invalidFound => exact ⟨_, _, rfl, hout.extend_right (by decide) l₂⟩
      | connected =>
        cases hout with
        | connected honly hext =>
          obtain ⟨l₃, x, rfl⟩ : ∃ l₃ x, l₁ = l₃ ++ [x] := by
            refine ⟨_, _, (dropLast_append_getLast (l := l₁) ?_).symm⟩
            rintro rfl
            rw [length_nil, nil_append] at hchunk
            rw [nil_append] at hlen
            omega
          have hheight : ((s.entry f).nHeight : ℤ) + (l₃ ++ [x]).length = (s'.entry x).nHeight := by
            rw [hext.toSameTree.nHeight, h.nHeight_above ha, length_append, length_singleton]
            push_cast
            ring
          have hkept : w ∈ s'.setBlockIndexCandidates := (hext.candidates w).mpr ⟨hw, hrank⟩
          have ha' : Above s' x w l₂ := (h.above_append ha).2.mono hext.toSameTree
          have hfuel' : l₂.length < fuel := by
            rw [length_append, length_append, length_singleton] at hfuel
            omega
          obtain ⟨e, s'', hrest, hout'⟩ := ih (hext.toSameTree.tree h) hext.tip_concat ha' hkept hfuel'
          dsimp only
          rw [hheight]
          exact ⟨e, s'', hrest, hout'.prepend honly hext⟩

end Chunks

section Step

lemma frame_disconnectTo (fork : Option Uint256) : Frame s (s.disconnectTo fork) :=
  ⟨SameTree.of_entry rfl rfl, fun _ => le_rfl, rfl, rfl, rfl, rfl⟩

/-- A step towards a candidate goes down to the fork and connects the blocks above it. -/
theorem activateBestChainStep_spec (h : Tree s) (ht : ActiveTip s t) (hmem : w ∈ s.mapBlockIndex)
    (hw : w ∈ s.setBlockIndexCandidates) :
    ∃ f e s', f ∈ s.lineage t ∧ Above s f w (s.offChain w).reverse ∧
      activateBestChainStep ctx s w = .ok (e, s') ∧
      Outcome ctx (s.disconnectTo (some f)) t (s.offChain w).reverse e s' := by
  obtain ⟨f, hfind, hf, -, hcut⟩ := ht.findFork h hmem
  have habove : Above s f w (s.offChain w).reverse := by
    unfold Above
    rw [reverse_reverse]
    exact hcut
  have hsame : SameTree s (s.disconnectTo (some f)) := (frame_disconnectTo (some f)).toSameTree
  have htree := hsame.tree h
  have htip : (s.disconnectTo (some f)).tip = some f := (ht.disconnectTo h hf).tip htree
  have hfuel : (s.offChain w).reverse.length < (s.entry w).nHeight + 2 := by
    have hlen := h.length_above habove
    omega
  obtain ⟨e, s', hrun, hout⟩ := connectChunks_spec htree htip (habove.mono hsame) hw hfuel
  refine ⟨f, e, s', hf, habove, ?_, hout⟩
  unfold activateBestChainStep
  rw [hfind, ht.tip h]
  exact hrun

end Step

end ChainState

end MutableBitcoin
