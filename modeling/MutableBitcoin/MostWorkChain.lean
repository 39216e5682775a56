import MutableBitcoin.ActivateStep

/-!
# The most-work chain

`FindMostWorkChain` takes the best candidate whose branch has no failed block. The candidates above a
failed block that it meets on the way are dropped and marked.
-/

namespace MutableBitcoin
open Lib List

namespace ChainState

variable {ctx : ChainContext} {s s' s'' : ChainState} {a b c t w x : Uint256} {l : List Uint256}

section Ready

/-- What the activation relies on: the candidates are blocks of the index that have the data of their whole
chain and are not worse than the tip. -/
structure Ready (ctx : ChainContext) (s : ChainState) (t : Uint256) : Prop where
  tree : Tree s
  active : ActiveTip s t
  candidates_mem : ∀ c ∈ s.setBlockIndexCandidates, c ∈ s.mapBlockIndex
  linked : ∀ c ∈ s.setBlockIndexCandidates, ∀ a ∈ s.lineage c,
    (s.entry a).nChainTx ≠ 0 ∧ (s.entry a).nStatus.haveData = true
  notWorse : ∀ c ∈ s.setBlockIndexCandidates, rank ctx s t ≤ rank ctx s c

/-- A failed block lies on the way to `b`. -/
def Spoiled (s : ChainState) (b : Uint256) : Prop :=
  ∃ a ∈ s.lineage b, (s.entry a).nStatus.failed = true ∧ a ∉ s.chainActive

/-- The best usable candidate. -/
structure Target (ctx : ChainContext) (s : ChainState) (w : Uint256) : Prop where
  mem : w ∈ s.setBlockIndexCandidates
  usable : ¬Spoiled s w
  max : ∀ c ∈ s.setBlockIndexCandidates, ¬Spoiled s c → rank ctx s c ≤ rank ctx s w

lemma Target.eq (h : Target ctx s w) (h' : Target ctx s x) : w = x :=
  rank_injective ((h'.max w h.mem h.usable).antisymm (h.max x h'.mem h'.usable))

lemma ActiveTip.mem_chainActive_iff (ht : ActiveTip s t) : b ∈ s.chainActive ↔ b ∈ s.lineage t := by
  rw [ht.chain, mem_reverse]

lemma Tree.spoiled_trans (h : Tree s) (ha : Spoiled s a) (hb : a ∈ s.lineage b) : Spoiled s b := by
  obtain ⟨x, hx, hfailed, hoff⟩ := ha
  exact ⟨x, h.trans hx hb, hfailed, hoff⟩

lemma Ready.spoiled_iff (h : Ready ctx s t) (hb : b ∈ s.mapBlockIndex) :
    Spoiled s b ↔ ∃ a ∈ s.offChain b, (s.entry a).nStatus.failed = true := by
  obtain ⟨f, -, hf, -, hcut⟩ := h.active.findFork h.tree hb
  constructor
  · rintro ⟨a, ha, hfailed, hoff⟩
    rw [hcut, mem_append] at ha
    cases ha with
    | inl habove => exact ⟨a, habove, hfailed⟩
    | inr hbelow =>
      rw [h.active.mem_chainActive_iff] at hoff
      exact absurd (h.tree.trans hbelow hf) hoff
  · rintro ⟨a, ha, hfailed⟩
    refine ⟨a, ?_, hfailed, ?_⟩
    · rw [hcut]
      exact mem_append_left _ ha
    · rw [h.active.mem_chainActive_iff]
      exact h.active.notMem_offChain h.tree ha

lemma Ready.shrink (h : Ready ctx s t) (hs : SameTree s s') (hchain : s'.chainActive = s.chainActive)
    (hcandidates : s'.setBlockIndexCandidates ⊆ s.setBlockIndexCandidates) : Ready ctx s' t where
  tree := hs.tree h.tree
  active := ⟨by rw [hchain, hs.lineage, h.active.chain], by rw [hs.map]; exact h.active.mem⟩
  candidates_mem c hc := by
    rw [hs.map]
    exact h.candidates_mem c (hcandidates hc)
  linked c hc a ha := by
    rw [hs.lineage] at ha
    rw [hs.nChainTx, hs.haveData]
    exact h.linked c (hcandidates hc) a ha
  notWorse c hc := by
    rw [hs.rank, hs.rank]
    exact h.notWorse c (hcandidates hc)

end Ready

section Dropped

/-- Candidates were dropped, and children of failed blocks marked. -/
structure Dropped (s s' : ChainState) : Prop extends Frame s s' where
  chain : s'.chainActive = s.chainActive
  failedValid : ∀ b, (s'.entry b).nStatus.failedValid = (s.entry b).nStatus.failedValid
  failedChild_mono : ∀ b, (s.entry b).nStatus.failedChild = true → (s'.entry b).nStatus.failedChild = true
  failedChild_new : ∀ b, (s'.entry b).nStatus.failedChild = true →
    (s.entry b).nStatus.failedChild = true ∨ Spoiled s b ∧ (s.entry b).nChainTx ≠ 0
  candidates : s'.setBlockIndexCandidates.Sublist s.setBlockIndexCandidates
  kept : ∀ c ∈ s.setBlockIndexCandidates, ¬Spoiled s c → c ∈ s'.setBlockIndexCandidates
  removed : ∀ c ∈ s.setBlockIndexCandidates, c ∉ s'.setBlockIndexCandidates →
    (s'.entry c).nStatus.failed = true

lemma Dropped.refl (s : ChainState) : Dropped s s where
  toFrame := Frame.refl s
  chain := rfl
  failedValid _ := rfl
  failedChild_mono _ h := h
  failedChild_new _ h := Or.inl h
  candidates := List.Sublist.refl _
  kept _ hc _ := hc
  removed _ hc hnot := absurd hc hnot

lemma Dropped.failed_mono (h : Dropped s s') (hb : (s.entry b).nStatus.failed = true) :
    (s'.entry b).nStatus.failed = true := by
  rw [failed_iff] at hb ⊢
  rw [h.failedValid]
  exact hb.imp_right (h.failedChild_mono b)

lemma Dropped.failed_new (h : Dropped s s') (hb : (s'.entry b).nStatus.failed = true) :
    (s.entry b).nStatus.failed = true ∨ Spoiled s b ∧ (s.entry b).nChainTx ≠ 0 := by
  rw [failed_iff, h.failedValid] at hb
  rw [failed_iff]
  cases hb with
  | inl hvalid => exact Or.inl (Or.inl hvalid)
  | inr hchild => exact (h.failedChild_new b hchild).imp_left Or.inr

lemma Dropped.spoiled_iff (h : Dropped s s') (hs : Tree s) : Spoiled s' b ↔ Spoiled s b := by
  constructor
  · rintro ⟨a, ha, hfailed, hoff⟩
    rw [h.toSameTree.lineage] at ha
    rw [h.chain] at hoff
    cases h.failed_new hfailed with
    | inl hold => exact ⟨a, ha, hold, hoff⟩
    | inr hspoiled => exact hs.spoiled_trans hspoiled.1 ha
  · rintro ⟨a, ha, hfailed, hoff⟩
    refine ⟨a, ?_, h.failed_mono hfailed, ?_⟩
    · rwa [h.toSameTree.lineage]
    · rwa [h.chain]

lemma Dropped.trans (h : Dropped s s') (hs : Tree s) (h' : Dropped s' s'') : Dropped s s'' where
  toFrame := h.toFrame.trans h'.toFrame
  chain := h'.chain.trans h.chain
  failedValid b := (h'.failedValid b).trans (h.failedValid b)
  failedChild_mono b hb := h'.failedChild_mono b (h.failedChild_mono b hb)
  failedChild_new b hb := by
    cases h'.failedChild_new b hb with
    | inl hmid => exact h.failedChild_new b hmid
    | inr hspoiled =>
      rw [h.spoiled_iff hs, h.nChainTx] at hspoiled
      exact Or.inr hspoiled
  candidates := h'.candidates.trans h.candidates
  kept c hc hok := h'.kept c (h.kept c hc hok) (fun hspoiled => hok ((h.spoiled_iff hs).mp hspoiled))
  removed c hc hnot := by
    by_cases hmid : c ∈ s'.setBlockIndexCandidates
    · exact h'.removed c hmid hnot
    · exact h'.failed_mono (h.removed c hc hmid)

lemma Dropped.ready (h : Dropped s s') (hs : Ready ctx s t) : Ready ctx s' t :=
  hs.shrink h.toSameTree h.chain h.candidates.subset

lemma Dropped.target_iff (h : Dropped s s') (hs : Tree s) : Target ctx s' w ↔ Target ctx s w := by
  constructor
  · intro ht
    refine ⟨h.candidates.subset ht.mem, (h.spoiled_iff hs).not.mp ht.usable, fun c hc hok => ?_⟩
    rw [← h.toSameTree.rank, ← h.toSameTree.rank]
    exact ht.max c (h.kept c hc hok) ((h.spoiled_iff hs).not.mpr hok)
  · intro ht
    refine ⟨h.kept w ht.mem ht.usable, (h.spoiled_iff hs).not.mpr ht.usable, fun c hc hok => ?_⟩
    rw [h.toSameTree.rank, h.toSameTree.rank]
    exact ht.max c (h.candidates.subset hc) ((h.spoiled_iff hs).not.mp hok)

lemma mem_eraseCandidate_iff : c ∈ (s.eraseCandidate b).setBlockIndexCandidates ↔
    c ∈ s.setBlockIndexCandidates ∧ c ≠ b := by
  unfold eraseCandidate
  rw [mem_filter, decide_eq_true_eq]

lemma dropped_eraseCandidate (hb : Spoiled s b) (hfailed : (s.entry b).nStatus.failed = true) :
    Dropped s (s.eraseCandidate b) where
  toFrame := frame_eraseCandidate b
  chain := rfl
  failedValid _ := rfl
  failedChild_mono _ h := h
  failedChild_new _ h := Or.inl h
  candidates := filter_sublist
  kept c hc hok := by
    refine mem_eraseCandidate_iff.mpr ⟨hc, ?_⟩
    rintro rfl
    exact hok hb
  removed c hc hnot := by
    rw [mem_eraseCandidate_iff, not_and_not_right] at hnot
    rw [hnot hc]
    exact hfailed

lemma dropped_dropFailed (hs : Tree s) (hb : Spoiled s b) (hlinked : (s.entry b).nChainTx ≠ 0) :
    Dropped s (dropFailed true s b) := by
  have hmark : Dropped s (s.modifyStatus b (fun st => { st with failedChild := true })) := by
    have hentry : ∀ d, d ≠ b →
        (s.modifyStatus b (fun st => { st with failedChild := true })).entry d = s.entry d :=
      fun d hd => Function.update_of_ne hd _ _
    have hself : (s.modifyStatus b (fun st => { st with failedChild := true })).entry b =
        { s.entry b with nStatus := { (s.entry b).nStatus with failedChild := true } } :=
      Function.update_self _ _ _
    constructor
    case toFrame => exact frame_modifyStatus b (fun _ => rfl) (fun _ => rfl)
    case chain => rfl
    case failedValid =>
      intro d
      by_cases hd : d = b
      · rw [hd, hself]
      · rw [hentry d hd]
    case failedChild_mono =>
      intro d hchild
      by_cases hd : d = b
      · rw [hd, hself]
      · rwa [hentry d hd]
    case failedChild_new =>
      intro d hchild
      by_cases hd : d = b
      · rw [hd]
        exact Or.inr ⟨hb, hlinked⟩
      · rw [hentry d hd] at hchild
        exact Or.inl hchild
    case candidates => exact List.Sublist.refl _
    case kept => exact fun c hc _ => hc
    case removed => exact fun c hc hnot => absurd hc hnot
  have hfailed : ((s.modifyStatus b (fun st => { st with failedChild := true })).entry b).nStatus.failed = true := by
    unfold modifyStatus modifyEntry
    dsimp only
    rw [Function.update_self]
    exact Bool.or_true _
  exact hmark.trans hs (dropped_eraseCandidate ((hmark.spoiled_iff hs).mpr hb) hfailed)

lemma dropped_foldl (hs : Tree s) (hl : ∀ b ∈ l, Spoiled s b ∧ (s.entry b).nChainTx ≠ 0) :
    Dropped s (l.foldl (dropFailed true) s) := by
  induction l generalizing s with
  | nil => exact Dropped.refl s
  | cons b l ih =>
    obtain ⟨hb, hlinked⟩ := hl b mem_cons_self
    have hfirst := dropped_dropFailed hs hb hlinked
    apply hfirst.trans hs
    apply ih (hfirst.toSameTree.tree hs)
    intro c hc
    rw [hfirst.spoiled_iff hs, hfirst.nChainTx]
    exact hl c (mem_cons_of_mem _ hc)

lemma notMem_foldl_dropFailed (hb : b ∈ l) :
    b ∉ (l.foldl (dropFailed true) s).setBlockIndexCandidates := by
  have hgone : ∀ (l : List Uint256) (s : ChainState), b ∉ s.setBlockIndexCandidates →
      b ∉ (l.foldl (dropFailed true) s).setBlockIndexCandidates := by
    intro l
    induction l with
    | nil => exact fun s hs => hs
    | cons c l ih => exact fun s hs => ih _ (fun hmem => hs (mem_of_mem_filter hmem))
  induction l generalizing s with
  | nil => cases hb
  | cons c l ih =>
    cases mem_cons.mp hb with
    | inl heq =>
      apply hgone l
      intro hmem
      exact of_decide_eq_true (mem_filter.mp hmem).2 heq
    | inr hl => exact ih hl

lemma dropped_dropCandidate (hs : Tree s) (hlinked : ∀ a ∈ s.lineage w, (s.entry a).nChainTx ≠ 0)
    (hx : x ∈ s.lineage w) (hfailed : (s.entry x).nStatus.failed = true) (hoff : x ∉ s.chainActive) :
    Dropped s (s.dropCandidate w x) ∧ w ∉ (s.dropCandidate w x).setBlockIndexCandidates := by
  have hself : Spoiled s x := ⟨x, hs.self_mem x, hfailed, hoff⟩
  obtain ⟨above, hcut, hnot, hall⟩ := hs.eq_append_of_mem hx
  have habove : ∀ b ∈ above, b ∈ s.lineage w := by
    intro b hb
    rw [hcut]
    exact mem_append_left _ hb
  have htake : (s.lineage w).takeWhile (· ≠ x) = above := by
    obtain ⟨below, hlineage⟩ := hs.head_lineage x
    rw [hcut, hlineage, takeWhile_append_of_pos, takeWhile_cons_of_neg (by simp), append_nil]
    rintro a ha
    rw [decide_eq_true_eq]
    rintro rfl
    exact hnot ha
  have hfold : Dropped s (above.foldl (dropFailed true) s) :=
    dropped_foldl hs fun b hb => ⟨hs.spoiled_trans hself (hall b hb), hlinked b (habove b hb)⟩
  unfold dropCandidate
  rw [htake, hfailed]
  have hlast := dropped_eraseCandidate ((hfold.spoiled_iff hs).mpr hself) (hfold.failed_mono hfailed)
  refine ⟨hfold.trans hs hlast, fun hmem => ?_⟩
  obtain ⟨hmem, hne⟩ := mem_filter.mp hmem
  have hw : w ∈ above := by
    have hw := hs.self_mem w
    obtain ⟨below, hlineage⟩ := hs.head_lineage w
    rw [← htake, hlineage, takeWhile_cons_of_pos (by exact hne)]
    exact mem_cons_self
  exact notMem_foldl_dropFailed hw hmem

end Dropped

section Search

lemma findUnusable_eq (hl : ∀ b ∈ l, (s.entry b).nChainTx ≠ 0 ∧ (s.entry b).nStatus.haveData = true) :
    findUnusable s l = .ok (l.find? (fun b => (s.entry b).nStatus.failed)) := by
  induction l with
  | nil => rfl
  | cons b l ih =>
    rw [forall_mem_cons] at hl
    obtain ⟨⟨hlinked, hdata⟩, hrest⟩ := hl
    unfold findUnusable
    rw [if_neg (fun hzero => hlinked hzero.1), hdata]
    cases hfailed : (s.entry b).nStatus.failed with
    | true => rw [find?_cons_of_pos (by exact hfailed)]; rfl
    | false => rw [find?_cons_of_neg (by rw [hfailed]; decide)]; exact ih hrest

/-- The search ends with the best usable candidate, or without any candidate left. -/
theorem findMostWorkFrom_spec {fuel : ℕ} (h : Ready ctx s t) (hfuel : s.setBlockIndexCandidates.length < fuel) :
    ∃ r s', findMostWorkFrom ctx fuel s = .ok (r, s') ∧ Dropped s s' ∧
      (r = none → s'.setBlockIndexCandidates = []) ∧ ∀ w, r = some w → Target ctx s w := by
  induction fuel generalizing s with
  | zero => omega
  | succ fuel ih =>
    unfold findMostWorkFrom
    cases hbest : best ctx s s.setBlockIndexCandidates with
    | none =>
      exact ⟨none, s, rfl, Dropped.refl s, fun _ => best_eq_none_iff.mp hbest, fun _ hw => nomatch hw⟩
    | some w =>
      obtain ⟨hw, hmax⟩ := best_spec hbest
      obtain ⟨f, -, -, -, hcut⟩ := h.active.findFork h.tree (h.candidates_mem w hw)
      have hsub : ∀ b ∈ s.offChain w, b ∈ s.lineage w := by
        intro b hb
        rw [hcut]
        exact mem_append_left _ hb
      dsimp only
      rw [findUnusable_eq (fun b hb => h.linked w hw b (hsub b hb))]
      cases hfind : (s.offChain w).find? (fun b => (s.entry b).nStatus.failed) with
      | none =>
        refine ⟨some w, s, rfl, Dropped.refl s, fun hnone => (nomatch hnone), ?_⟩
        intro v hv
        obtain rfl := Option.some.inj hv
        refine ⟨hw, ?_, fun c hc _ => hmax c hc⟩
        rw [h.spoiled_iff (h.candidates_mem w hw)]
        rintro ⟨a, ha, hfailed⟩
        exact find?_eq_none.mp hfind a ha hfailed
      | some x =>
        have hx := mem_of_find?_eq_some hfind
        have hfailed : (s.entry x).nStatus.failed = true := by
          have hsome := find?_some hfind
          exact hsome
        have hoff : x ∉ s.chainActive := by
          rw [h.active.mem_chainActive_iff]
          exact h.active.notMem_offChain h.tree hx
        obtain ⟨hdropped, hgone⟩ :=
          dropped_dropCandidate h.tree (fun a ha => (h.linked w hw a ha).1) (hsub x hx) hfailed hoff
        have hless : (s.dropCandidate w x).setBlockIndexCandidates.length < s.setBlockIndexCandidates.length := by
          apply lt_of_le_of_ne hdropped.candidates.length_le
          intro heq
          rw [hdropped.candidates.eq_of_length heq] at hgone
          exact hgone hw
        obtain ⟨r, s', hrun, hrest, hnone, hsome⟩ := ih (hdropped.ready h) (by omega)
        refine ⟨r, s', hrun, hdropped.trans h.tree hrest, hnone, fun v hv => ?_⟩
        exact (hdropped.target_iff h.tree).mp (hsome v hv)

theorem findMostWorkChain_spec (h : Ready ctx s t) :
    ∃ r s', findMostWorkChain ctx s = .ok (r, s') ∧ Dropped s s' ∧
      (r = none → s'.setBlockIndexCandidates = []) ∧ ∀ w, r = some w → Target ctx s w :=
  findMostWorkFrom_spec h (Nat.lt_succ_self _)

end Search

end ChainState

/-!
## The loop of the activation

An iteration of `ActivateBestChain` goes from the tip down to a fork and up the branch of the
target.
-/

namespace ChainState

variable {ctx : ChainContext} {s s' s₁ : ChainState} {a b c f t w x : Uint256} {pre rest : List Uint256}

section Advance

/-- The step went from the tip `t` down to `f` and connected the blocks of `pre` on the way to `w`. -/
structure Advance (ctx : ChainContext) (s s' : ChainState) (t f w : Uint256) (pre rest : List Uint256) :
    Prop where
  ready : Ready ctx s t
  target : Target ctx s w
  fork : f ∈ s.lineage t
  above : Above s f w (pre ++ rest)
  path : (s.offChain w).reverse = pre ++ rest
  extended : Extended ctx (s.disconnectTo (some f)) s' pre

lemma Tree.above_getLastD (h : Tree s) (ha : Above s f w (pre ++ rest)) :
    Above s f (pre.getLastD f) pre ∧ Above s (pre.getLastD f) w rest := by
  cases pre using List.reverseRecOn with
  | nil => exact ⟨rfl, ha⟩
  | append_singleton pre x =>
    rw [getLastD_concat]
    exact h.above_append ha

lemma ActiveTip.offChain_eq (h : Tree s) (ht : ActiveTip s t) (ha : Above s t w rest) :
    s.offChain w = rest.reverse := by
  obtain ⟨below, hlineage⟩ := h.head_lineage t
  have hoff : ∀ b ∈ rest.reverse, (!s.contains b) = true := by
    intro b hb
    obtain ⟨l₁, l₂, rfl⟩ := append_of_mem (mem_reverse.mp hb)
    rw [append_cons] at ha
    have hheight := h.nHeight_above ha
    rw [Bool.not_eq_true', ← Bool.not_eq_true, ht.contains_iff h]
    intro hmem
    have hle := h.leveled.depth_le hmem
    omega
  have htip : s.contains t = true := (ht.contains_iff h).mpr (h.self_mem t)
  unfold offChain
  rw [ha, takeWhile_append_of_pos hoff, hlineage, takeWhile_cons_of_neg (by rw [htip]; decide),
    append_nil]

namespace Advance

variable (h : Advance ctx s s' t f w pre rest)

include h

lemma sameTree : SameTree s s' := (frame_disconnectTo (some f)).toSameTree.trans h.extended.toSameTree

lemma off (hb : b ∈ pre ++ rest) : b ∉ s.chainActive := by
  rw [h.ready.active.mem_chainActive_iff]
  apply h.ready.active.notMem_offChain h.ready.tree (c := w)
  rw [← mem_reverse, h.path]
  exact hb

lemma path_mem (hb : b ∈ pre ++ rest) : b ∈ s.lineage w ∧ b ∈ s.mapBlockIndex := by
  have hmem := h.above.subset hb
  exact ⟨hmem, h.ready.tree.mem_of_lineage (h.ready.candidates_mem w h.target.mem) hmem⟩

lemma failed_eq (b : Uint256) : (s'.entry b).nStatus.failed = (s.entry b).nStatus.failed :=
  h.extended.toSameFlags.failed b

lemma not_failed (hb : b ∈ pre ++ rest) : (s.entry b).nStatus.failed = false := by
  rw [← Bool.not_eq_true]
  intro hfailed
  exact h.target.usable ⟨b, (h.path_mem hb).1, hfailed, h.off hb⟩

lemma candidates_iff : c ∈ s'.setBlockIndexCandidates ↔
    c ∈ s.setBlockIndexCandidates ∧ ∀ x ∈ pre, rank ctx s x ≤ rank ctx s c := by
  rw [h.extended.candidates]
  have hrank : ∀ d, rank ctx (s.disconnectTo (some f)) d = rank ctx s d :=
    (frame_disconnectTo (some f)).toSameTree.rank
  simp only [hrank]
  exact Iff.rfl

lemma chain_eq : s'.chainActive = (s.lineage (pre.getLastD f)).reverse := by
  have hchain : (s.disconnectTo (some f)).chainActive = (s.lineage f).reverse := by
    have hfork := (h.ready.active.disconnectTo h.ready.tree h.fork).chain
    rwa [(frame_disconnectTo (some f)).toSameTree.lineage] at hfork
  rw [h.extended.chain, hchain, (h.ready.tree.above_getLastD h.above).1, reverse_append, reverse_reverse]

lemma mem_chain_iff : b ∈ s'.chainActive ↔ b ∈ pre ∨ b ∈ s.lineage f := by
  rw [h.chain_eq, mem_reverse, (h.ready.tree.above_getLastD h.above).1, mem_append, mem_reverse]

/-- The last block that was connected is the new tip. -/
theorem ready' : Ready ctx s' (pre.getLastD f) where
  tree := h.sameTree.tree h.ready.tree
  active := by
    constructor
    · rw [h.chain_eq, h.sameTree.lineage]
    · rw [h.sameTree.map]
      apply h.ready.tree.mem_of_lineage (h.ready.candidates_mem w h.target.mem)
      have hrest := (h.ready.tree.above_getLastD h.above).2
      rw [hrest]
      exact mem_append_right _ (h.ready.tree.self_mem _)
  candidates_mem c hc := by
    rw [h.sameTree.map]
    exact h.ready.candidates_mem c (h.candidates_iff.mp hc).1
  linked c hc a ha := by
    rw [h.sameTree.lineage] at ha
    rw [h.sameTree.nChainTx, h.sameTree.haveData]
    exact h.ready.linked c (h.candidates_iff.mp hc).1 a ha
  notWorse c hc := by
    rw [h.sameTree.rank, h.sameTree.rank]
    obtain ⟨hmem, hmin⟩ := h.candidates_iff.mp hc
    cases pre using List.reverseRecOn with
    | nil => exact (h.ready.tree.rank_le h.fork).trans (h.ready.notWorse c hmem)
    | append_singleton pre x =>
      rw [getLastD_concat]
      exact hmin x (mem_append_right _ (mem_singleton_self x))

lemma above' : Above s' (pre.getLastD f) w rest := (h.ready.tree.above_getLastD h.above).2.mono h.sameTree

lemma offChain' : s'.offChain w = rest.reverse := h.ready'.active.offChain_eq h.ready'.tree h.above'

/-- The target stays the best usable candidate. -/
theorem target' : Target ctx s' w := by
  refine ⟨?_, ?_, fun c hc hok => ?_⟩
  · rw [h.candidates_iff]
    refine ⟨h.target.mem, fun x hx => ?_⟩
    exact h.ready.tree.rank_le (h.path_mem (mem_append_left _ hx)).1
  · rintro ⟨a, ha, hfailed, hoff⟩
    rw [h.sameTree.lineage, h.above, mem_append, mem_reverse] at ha
    rw [h.failed_eq] at hfailed
    rw [h.mem_chain_iff, not_or] at hoff
    cases ha with
    | inl habove =>
      rw [h.not_failed habove] at hfailed
      cases hfailed
    | inr hbelow => exact hoff.2 hbelow
  · rw [h.sameTree.rank, h.sameTree.rank]
    apply h.target.max c (h.candidates_iff.mp hc).1
    rintro ⟨a, ha, hfailed, hoff⟩
    refine hok ⟨a, ?_, ?_, ?_⟩
    · rwa [h.sameTree.lineage]
    · rwa [h.failed_eq]
    · rw [h.mem_chain_iff, not_or]
      constructor
      · intro hpre
        rw [h.not_failed (mem_append_left _ hpre)] at hfailed
        cases hfailed
      · intro hbelow
        rw [h.ready.active.mem_chainActive_iff] at hoff
        exact hoff (h.ready.tree.trans hbelow h.fork)

end Advance

end Advance

section Iteration

variable {l : LoopState}

/-- What holds at the head of the loop. -/
structure LoopReady (ctx : ChainContext) (l : LoopState) (t : Uint256) : Prop where
  ready : Ready ctx l.chain t
  cached : ∀ w, l.pindexMostWork = some w → Target ctx l.chain w

/-- What an iteration does in the state `s` with tip `t`. -/
inductive Iterated (ctx : ChainContext) (s : ChainState) (t : Uint256) : Iteration → Prop
  | idle {s' : ChainState} (hs : Dropped s s') (hdone : s'.setBlockIndexCandidates = [] ∨ Target ctx s t) :
      Iterated ctx s t (.idle s')
  | connected {s₁ s' : ChainState} {f w : Uint256} {pre : List Uint256} (hs : Dropped s s₁) (hne : t ≠ w)
      (hstep : Advance ctx s₁ s' t f w pre []) (hpre : ConnectedOnly ctx s t pre) :
      Iterated ctx s t (.released s' (some w))
  | improved {s₁ s' : ChainState} {f w b : Uint256} {pre rest : List Uint256} (hs : Dropped s s₁) (hne : t ≠ w)
      (hstep : Advance ctx s₁ s' t f w (pre ++ [b]) rest) (hpre : ConnectedOnly ctx s t pre)
      (hb : ctx.connectBlock b = .valid) (himproves : improvesOn s t b) : Iterated ctx s t (.released s' (some w))
  | invalid {s₁ s' : ChainState} {f w b : Uint256} {pre rest : List Uint256} (hs : Dropped s s₁) (hne : t ≠ w)
      (hstep : Advance ctx s₁ s' t f w pre (b :: rest)) (hpre : ConnectedOnly ctx s t pre)
      (hb : ctx.connectBlock b = .invalid) : Iterated ctx s t (.released (s'.invalidBlockFound b) none)
  | corrupted {s₁ s' : ChainState} {f w b : Uint256} {pre rest : List Uint256} (hs : Dropped s s₁) (hne : t ≠ w)
      (hstep : Advance ctx s₁ s' t f w pre (b :: rest)) (hpre : ConnectedOnly ctx s t pre)
      (hb : ctx.connectBlock b = .corrupted) : Iterated ctx s t (.released s' none)

lemma Dropped.offChain_eq (h : Dropped s s') (b : Uint256) : s'.offChain b = s.offChain b := by
  unfold offChain contains
  simp only [h.toSameTree.lineage, h.chain, h.nHeight]

lemma target_spec (h : LoopReady ctx l t) :
    ∃ r s', target ctx l = .ok (r, s') ∧ Dropped l.chain s' ∧
      (r = none → s'.setBlockIndexCandidates = []) ∧ ∀ w, r = some w → Target ctx l.chain w := by
  unfold target
  cases hcached : l.pindexMostWork with
  | none => exact findMostWorkChain_spec h.ready
  | some w =>
    refine ⟨some w, l.chain, rfl, Dropped.refl _, fun hnone => (nomatch hnone), fun v hv => ?_⟩
    exact h.cached v (hcached.trans hv)

/-- No assertion fails in an iteration. -/
theorem iterate_spec (h : LoopReady ctx l t) :
    ∃ it, iterate ctx l = .ok it ∧ Iterated ctx l.chain t it := by
  obtain ⟨r, s₁, htarget, hdropped, hnone, hsome⟩ := target_spec h
  unfold iterate
  rw [htarget]
  cases r with
  | none => exact ⟨_, rfl, Iterated.idle hdropped (Or.inl (hnone rfl))⟩
  | some w =>
    have hready := hdropped.ready h.ready
    have hw : Target ctx s₁ w := (hdropped.target_iff h.ready.tree).mpr (hsome w rfl)
    have htip := hready.active.tip hready.tree
    dsimp only
    by_cases hdone : t = w
    · rw [if_pos (htip.trans (congrArg some hdone))]
      refine ⟨_, rfl, Iterated.idle hdropped (Or.inr ?_)⟩
      rw [hdone]
      exact hsome w rfl
    · rw [if_neg (fun heq => hdone (Option.some.inj (htip.symm.trans heq)))]
      obtain ⟨f, e, s', hf, habove, hrun, hout⟩ := activateBestChainStep_spec hready.tree hready.active
        (hready.candidates_mem w hw.mem) hw.mem
      have honly : ∀ {pre}, ConnectedOnly ctx (s₁.disconnectTo (some f)) t pre →
          ConnectedOnly ctx l.chain t pre := by
        intro pre hpre b hb
        obtain ⟨hvalid, hbetter⟩ := hpre b hb
        rw [(frame_disconnectTo (some f)).toSameTree.improvesOn_iff, hdropped.toSameTree.improvesOn_iff] at hbetter
        exact ⟨hvalid, hbetter⟩
      rw [hrun]
      cases hout with
      | connected hl hs =>
        refine ⟨_, rfl, Iterated.connected hdropped hdone (f := f) ⟨hready, hw, hf, ?_, ?_, hs⟩ (honly hl)⟩
        · rwa [append_nil]
        · rw [append_nil]
      | improved hl hpre hb himproves hs =>
        obtain ⟨rest, hrest⟩ := hl
        rw [(frame_disconnectTo (some f)).toSameTree.improvesOn_iff, hdropped.toSameTree.improvesOn_iff] at himproves
        rw [← hrest] at habove
        exact ⟨_, rfl, Iterated.improved hdropped hdone ⟨hready, hw, hf, habove, hrest.symm, hs⟩ (honly hpre) hb
          himproves⟩
      | invalid hl hpre hb hs =>
        obtain ⟨rest, hrest⟩ := hl
        rw [← append_cons] at hrest
        rw [← hrest] at habove
        exact ⟨_, rfl, Iterated.invalid hdropped hdone ⟨hready, hw, hf, habove, hrest.symm, hs⟩ (honly hpre) hb⟩
      | corrupted hl hpre hb hs =>
        obtain ⟨rest, hrest⟩ := hl
        rw [← append_cons] at hrest
        rw [← hrest] at habove
        exact ⟨_, rfl, Iterated.corrupted hdropped hdone ⟨hready, hw, hf, habove, hrest.symm, hs⟩ (honly hpre) hb⟩

lemma frame_invalidBlockFound (b : Uint256) : Frame s (s.invalidBlockFound b) := by
  have hmark : Frame s (s.modifyStatus b (fun st => { st with failedValid := true })) :=
    frame_modifyStatus b (fun _ => rfl) (fun _ => rfl)
  exact hmark.trans (frame_eraseCandidate b)

lemma Ready.invalidBlockFound (h : Ready ctx s t) (b : Uint256) : Ready ctx (s.invalidBlockFound b) t :=
  h.shrink (frame_invalidBlockFound b).toSameTree rfl (filter_subset_self _)

/-- The next iteration can rely on what this one leaves. -/
theorem Iterated.loopReady {r : Option Uint256} (h : Iterated ctx s t (.released s' r)) :
    ∃ t', LoopReady ctx ⟨s', r⟩ t' := by
  cases h with
  | connected hs hne hstep hpre =>
    refine ⟨_, hstep.ready', fun w hw => ?_⟩
    obtain rfl := Option.some.inj hw
    exact hstep.target'
  | improved hs hne hstep hpre hb himproves =>
    refine ⟨_, hstep.ready', fun w hw => ?_⟩
    obtain rfl := Option.some.inj hw
    exact hstep.target'
  | invalid hs hne hstep hpre hb => exact ⟨_, hstep.ready'.invalidBlockFound _, fun w hw => nomatch hw⟩
  | corrupted hs hne hstep hpre hb => exact ⟨_, hstep.ready', fun w hw => nomatch hw⟩

end Iteration

end ChainState

end MutableBitcoin
